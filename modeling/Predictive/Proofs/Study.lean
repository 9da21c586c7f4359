import Predictive.Proofs.Sets.Follow
import Predictive.Proofs.Table.Contents
import Predictive.Study

/-!
# Studies of well-formed grammars

Studying a well-formed grammar cannot fail (`exists_study`). The facts
that later modules use about its parts are collected on
`Study.IsOf`: which production a cell of the table holds, and that the
verdict is the separation of the alternatives.
-/

namespace Predictive

/-- The parts of a study are what the grammar's analyses give. -/
structure Study.IsOf (s : Study) (g : Grammar) : Prop where
  grammar : s.grammar = g
  first : s.first = g.first ∅
  follow : g.follow s.first.sets ∅ = .ok s.follow
  conflicts : g.conflicts s.first.sets s.follow.sets = .ok s.conflicts
  table : g.table s.first.sets s.follow.sets false = .ok s.table

theorem Grammar.exists_study {g : Grammar} (wf : g.WellFormed) :
    ∃ s, g.study = .ok s ∧ s.IsOf g := by
  have hfirst : ∀ A ∈ g.nonterminals, A ∈ (g.first ∅).sets.keys := fun _ => mem_keys_first
  obtain ⟨N, hN⟩ := exists_follow wf hfirst ∅
  have hfollow : ∀ A ∈ g.nonterminals, A ∈ N.sets.keys :=
    fun A hA => (keys_follow wf hfirst hN).symm ▸ hA
  have hconflicts := conflicts_eq wf hfirst hfollow
  have htable := table_eq wf hfirst hfollow
  refine ⟨⟨g, g.first ∅, N, _, _⟩, ?_, ⟨rfl, rfl, hN, hconflicts, htable⟩⟩
  simp only [study, hN, bind, Except.bind, hconflicts, htable]
  rfl

/-- What is computed of a loaded grammar and of its study holds of
them. -/
theorem Grammar.computed_eq {pairs : List (Text × List Text)} {g : Grammar} {s : Study}
    {α : Type} {x : α} {f : Grammar → Study → α} (h : load pairs = .ok g) (hs : g.study = .ok s)
    (hx : ((load pairs).toOption.bind fun g => g.study.toOption.map (f g)) = some x) :
    f g s = x := by
  rw [h, Except.toOption, Option.bind_some, hs] at hx
  exact Option.some.inj hx

namespace Study.IsOf

variable {g : Grammar} {s : Study} (hs : s.IsOf g) (wf : g.WellFormed)
include hs

theorem keys_first : s.first.sets.keys = g.nonterminals := hs.first ▸ Grammar.keys_first g ∅

theorem mem_keys_first {A : Symbol} (hA : A ∈ g.nonterminals) : A ∈ s.first.sets.keys :=
  hs.keys_first.symm ▸ hA

theorem firstClosed (wf : g.WellFormed) : g.FirstClosed s.first.sets.find :=
  hs.first ▸ Grammar.firstClosed_first wf ∅

include wf

theorem keys_follow : s.follow.sets.keys = g.nonterminals :=
  Grammar.keys_follow wf (fun _ => hs.mem_keys_first) hs.follow

theorem mem_keys_follow {A : Symbol} (hA : A ∈ g.nonterminals) : A ∈ s.follow.sets.keys :=
  (hs.keys_follow wf).symm ▸ hA

theorem followClosed : g.FollowClosed s.first.sets.find s.follow.sets.find :=
  Grammar.followClosed_follow wf (fun _ => hs.mem_keys_first) hs.follow

theorem endMarker_mem_follow : .endMarker ∈ s.follow.sets.find g.start :=
  Grammar.followSeed_subset_follow wf (fun _ => hs.mem_keys_first) hs.follow wf.start_mem _
    (Grammar.mem_find_followSeed.2 (Or.inl ⟨rfl, rfl⟩))

theorem isLL1_iff : s.isLL1 ↔ g.Separated s.first.sets.find s.follow.sets.find := by
  rw [← Grammar.conflicts_eq_nil_iff wf (fun _ => hs.mem_keys_first)
    (fun _ => hs.mem_keys_follow wf), hs.conflicts, Except.ok.injEq, isLL1, List.isEmpty_iff]

theorem mem_of_get? {A a : Symbol} {p : Production} (h : s.table.get? A a = some p) :
    p ∈ g.productions ∧ p.lhs = A ∧ a ∈ p.columns s.first.sets.find s.follow.sets.find :=
  Grammar.mem_of_get?_table wf (fun _ => hs.mem_keys_first) (fun _ => hs.mem_keys_follow wf)
    hs.table h

/-- In a separated grammar a production stands wherever it is called
for. -/
theorem get?_of_mem_columns (hsep : g.Separated s.first.sets.find s.follow.sets.find)
    {p : Production} (mem : p ∈ g.productions) {a : Symbol}
    (ha : a ∈ p.columns s.first.sets.find s.follow.sets.find) :
    s.table.get? p.lhs a = some p :=
  hsep.get?_table wf (fun _ => hs.mem_keys_first) (fun _ => hs.mem_keys_follow wf) hs.table
    (hs.firstClosed wf) mem ha

end Study.IsOf

end Predictive
