import Predictive.Proofs.Conflict.Search
import Predictive.Proofs.Sets.First
import Predictive.Table.Build

/-!
# What stands in a filled table

Filling leniently cannot fail over maps with a set for each
nonterminal, and what a cell holds afterwards needs no account of the
order of writes: the writers of a cell are the alternatives of its row
that its column calls for, in the order of declaration
(`writers_table`), and the last of them is the one that counts
(`get?_table`).

In a separated grammar a cell has at most one writer
(`Separated.claim_unique`): two alternatives that begin with the same
symbol clash with each other, and one that begins with what follows its
nonterminal clashes with the one that vanishes.
-/

namespace Predictive

variable {first follow : SetMap} {f n : Symbol → SymbolSet} {A B a b : Symbol}

/-! ## Columns -/

/-- The columns that call for a production, where every nonterminal has
a set. -/
def Production.columns (f n : Symbol → SymbolSet) (p : Production) : List Symbol :=
  if p.isEpsilon then (n p.lhs).toList
  else match p.rhs with
    | [] => []
    | head :: _ => if head.isNonterminal then ((f head).erase .epsilon).toList else [head]

namespace Grammar.WellFormed

variable {g : Grammar} {p : Production}

theorem predicted_eq (wf : g.WellFormed) (mem : p ∈ g.productions)
    (hfirst : ∀ A ∈ g.nonterminals, A ∈ first.keys)
    (hfollow : ∀ A ∈ g.nonterminals, A ∈ follow.keys) :
    p.predicted first follow = .ok (p.columns first.find follow.find) := by
  cases hrhs : p.rhs with
  | nil => exact absurd hrhs (wf.normal p mem).ne_nil
  | cons head rest =>
    rw [Production.predicted, Production.columns]
    simp only [hrhs]
    split
    · rw [SetMap.require_of_mem (hfollow _ (lhs_mem_nonterminals mem))]
      rfl
    · split
      · next hn =>
        rw [SetMap.require_of_mem (hfirst _ (wf.defined p mem head (by simp [hrhs]) hn))]
        rfl
      · rfl

theorem mem_columns_epsilon (hp : p.isEpsilon) : a ∈ p.columns f n ↔ a ∈ n p.lhs := by
  rw [Production.columns, if_pos hp]
  exact SymbolSet.mem_toList

/-- A production that does not vanish is called for by what its first
symbol begins with. -/
theorem mem_columns (wf : g.WellFormed) (mem : p ∈ g.productions) (hp : p.isEpsilon = false)
    {head : Symbol} {rest : List Symbol} (hrhs : p.rhs = head :: rest) :
    a ∈ p.columns f n ↔ a ∈ firstOfSequence f [head] ∧ a ≠ .epsilon := by
  have hε : head ≠ .epsilon := wf.ne_epsilon_of_mem_rhs mem hp (by simp [hrhs])
  rw [Production.columns, hp, if_neg Bool.false_ne_true]
  simp only [hrhs]
  split
  · next hn => rw [SymbolSet.mem_toList, SymbolSet.mem_erase, mem_firstOfSequence_nonterminal hn]
  · next hn =>
    have ht : head.isTerminal := Symbol.isTerminal_iff.2 ⟨by simpa using hn, hε⟩
    rw [mem_firstOfSequence_terminal ht, List.mem_singleton]
    exact ⟨fun h => ⟨h, h ▸ hε⟩, And.left⟩

theorem mem_firstOfSequence_of_columns (wf : g.WellFormed) (mem : p ∈ g.productions)
    (hp : p.isEpsilon = false) (h : a ∈ p.columns f n) :
    a ∈ firstOfSequence f p.rhs ∧ a ≠ .epsilon := by
  cases hrhs : p.rhs with
  | nil => exact absurd hrhs (wf.normal p mem).ne_nil
  | cons head rest =>
    obtain ⟨hhead, hε⟩ := (wf.mem_columns mem hp hrhs).1 h
    exact ⟨mem_firstOfSequence_cons.2 (Or.inl ⟨hhead, hε⟩), hε⟩

end Grammar.WellFormed

/-! ## Writing -/

namespace ParsingTable

/-- The table after a production was written under each of its
columns. -/
def stamp (t : ParsingTable) (p : Production) (columns : List Symbol) : ParsingTable :=
  columns.foldl (fun t a => t.overwrite p.lhs a p) t

/-- The table after each production was written under its columns. -/
def stampAll (f n : Symbol → SymbolSet) (t : ParsingTable) (ps : List Production) :
    ParsingTable :=
  ps.foldl (fun t p => t.stamp p (p.columns f n)) t

theorem writeAll_eq (t : ParsingTable) (p : Production) (columns : List Symbol) :
    t.writeAll p.lhs p false columns = .ok (t.stamp p columns) := by
  induction columns generalizing t with
  | nil => rfl
  | cons a columns ih =>
    have hwrite : t.write p.lhs a p false = .ok (t.overwrite p.lhs a p) := by
      rw [write]
      split <;> rfl
    rw [writeAll, hwrite]
    exact ih (t.overwrite p.lhs a p)

theorem fill_eq {ps : List Production}
    (h : ∀ p ∈ ps, p.predicted first follow = .ok (p.columns first.find follow.find))
    (t : ParsingTable) :
    t.fill first follow false ps = .ok (t.stampAll first.find follow.find ps) := by
  induction ps generalizing t with
  | nil => rfl
  | cons p ps ih =>
    rw [fill, h p (List.mem_cons_self ..)]
    show (do let t ← t.writeAll p.lhs p false _; t.fill first follow false ps) = _
    rw [writeAll_eq]
    exact ih (fun q hq => h q (List.mem_cons_of_mem _ hq)) _

theorem mem_keys {t : ParsingTable} {place : Place} :
    place ∈ t.keys ↔ ∃ p, p ∈ t.writers place.row place.column := by
  rw [keys, ← OrderedMap.contains_iff, OrderedMap.contains, writers]
  cases t.cells.get? ⟨place.row, place.column⟩ with
  | none => simp
  | some c => exact iff_of_true rfl ⟨c.winner, c.winner_mem⟩

theorem cell_stamp (t : ParsingTable) (p : Production) (columns : List Symbol) :
    ((t.stamp p columns).get? B b =
        if p.lhs = B ∧ b ∈ columns then some p else t.get? B b) ∧
      (t.stamp p columns).writers B b =
        if (p.lhs = B ∧ b ∈ columns) ∧ p ∉ t.writers B b then t.writers B b ++ [p]
        else t.writers B b := by
  induction columns generalizing t with
  | nil => simp [stamp]
  | cons a columns ih =>
    obtain ⟨hget, hwriters⟩ := ih (t.overwrite p.lhs a p)
    rw [stamp, List.foldl_cons]
    rw [stamp] at hget hwriters
    rw [hget, hwriters, get?_overwrite, writers_overwrite]
    have hplace : (⟨B, b⟩ : Place) = ⟨p.lhs, a⟩ ↔ p.lhs = B ∧ b = a := by
      rw [Place.mk.injEq, eq_comm (a := B)]
    simp only [hplace, List.mem_cons]
    by_cases hB : p.lhs = B
    · subst hB
      by_cases hb : b = a
      · subst hb
        by_cases hmem : p ∈ t.writers p.lhs b <;> simp [hmem]
      · simp [hb]
    · simp [hB]

/-- Writing productions that are new to a cell appends those that claim
it. -/
theorem cell_stampAll {ps : List Production} (hnodup : ps.Nodup) {t : ParsingTable}
    (hnew : ∀ p ∈ ps, p ∉ t.writers B b) (hget : t.get? B b = (t.writers B b).getLast?) :
    (t.stampAll f n ps).writers B b =
        t.writers B b ++ ps.filter (fun p => p.lhs = B ∧ b ∈ p.columns f n) ∧
      (t.stampAll f n ps).get? B b = ((t.stampAll f n ps).writers B b).getLast? := by
  induction ps generalizing t with
  | nil => simp [stampAll, hget]
  | cons p ps ih =>
    obtain ⟨hp, hps⟩ := List.nodup_cons.1 hnodup
    obtain ⟨hg, hw⟩ := cell_stamp (B := B) (b := b) t p (p.columns f n)
    have hfresh := hnew p (List.mem_cons_self ..)
    rw [stampAll, List.foldl_cons]
    by_cases hclaim : p.lhs = B ∧ b ∈ p.columns f n
    · rw [if_pos hclaim] at hg
      rw [if_pos ⟨hclaim, hfresh⟩] at hw
      have hnew' : ∀ q ∈ ps, q ∉ (t.stamp p (p.columns f n)).writers B b := by
        intro q hq hmem
        rw [hw] at hmem
        rcases List.mem_append.1 hmem with hmem | hmem
        · exact hnew q (List.mem_cons_of_mem _ hq) hmem
        · exact hp (List.mem_singleton.1 hmem ▸ hq)
      obtain ⟨ihw, ihg⟩ := ih hps hnew' (by rw [hg, hw, List.getLast?_concat])
      refine ⟨?_, ihg⟩
      rw [stampAll] at ihw
      rw [ihw, hw, List.append_assoc, List.filter_cons_of_pos (by simpa using hclaim)]
      rfl
    · rw [if_neg hclaim] at hg
      rw [if_neg fun h => hclaim h.1] at hw
      have hnew' : ∀ q ∈ ps, q ∉ (t.stamp p (p.columns f n)).writers B b := by
        intro q hq
        rw [hw]
        exact hnew q (List.mem_cons_of_mem _ hq)
      obtain ⟨ihw, ihg⟩ := ih hps hnew' (by rw [hg, hw, hget])
      refine ⟨?_, ihg⟩
      rw [stampAll] at ihw
      rw [ihw, hw, List.filter_cons_of_neg (by simpa using hclaim)]

end ParsingTable

/-! ## The table of a grammar -/

namespace Grammar

variable {g : Grammar} {p q : Production} {t : ParsingTable}

theorem nodup_productions (wf : g.WellFormed) : g.productions.Nodup := by
  have hdistinct : g.rules.entries.Pairwise (fun r r' => r.1 ≠ r'.1) :=
    List.pairwise_map.1 g.rules.nodup
  refine List.pairwise_flatMap.2 ⟨fun r hr => ?_, hdistinct.imp fun hne p hp q hq => ?_⟩
  · exact List.pairwise_map.2 ((wf.distinct r.1 r.2 hr).imp fun hne he =>
      hne (congrArg Production.rhs he))
  · rintro rfl
    obtain ⟨body, -, rfl⟩ := List.mem_map.1 hp
    obtain ⟨body', -, he⟩ := List.mem_map.1 hq
    exact hne (congrArg Production.lhs he).symm

theorem table_eq (wf : g.WellFormed) (hfirst : ∀ A ∈ g.nonterminals, A ∈ first.keys)
    (hfollow : ∀ A ∈ g.nonterminals, A ∈ follow.keys) :
    g.table first follow false = .ok ((ParsingTable.blank g.nonterminals g.terminals).stampAll
      first.find follow.find g.productions) :=
  ParsingTable.fill_eq (fun _ mem => wf.predicted_eq mem hfirst hfollow) _

section Filled

variable (wf : g.WellFormed) (hfirst : ∀ A ∈ g.nonterminals, A ∈ first.keys)
  (hfollow : ∀ A ∈ g.nonterminals, A ∈ follow.keys) (h : g.table first follow false = .ok t)
include wf hfirst hfollow h

theorem writers_table (A a : Symbol) :
    t.writers A a =
      g.productions.filter (fun p => p.lhs = A ∧ a ∈ p.columns first.find follow.find) := by
  obtain rfl := Except.ok.inj ((table_eq wf hfirst hfollow).symm.trans h)
  exact (ParsingTable.cell_stampAll (nodup_productions wf) (fun _ _ => List.not_mem_nil) rfl).1

theorem get?_table (A a : Symbol) : t.get? A a = (t.writers A a).getLast? := by
  obtain rfl := Except.ok.inj ((table_eq wf hfirst hfollow).symm.trans h)
  exact (ParsingTable.cell_stampAll (nodup_productions wf) (fun _ _ => List.not_mem_nil) rfl).2

theorem mem_writers_table {A a : Symbol} :
    p ∈ t.writers A a ↔
      p ∈ g.productions ∧ p.lhs = A ∧ a ∈ p.columns first.find follow.find := by
  rw [writers_table wf hfirst hfollow h, List.mem_filter, decide_eq_true_eq]

/-- The production of a cell is one of the grammar for the cell's row,
and the column calls for it. -/
theorem mem_of_get?_table {A a : Symbol} (hget : t.get? A a = some p) :
    p ∈ g.productions ∧ p.lhs = A ∧ a ∈ p.columns first.find follow.find := by
  rw [get?_table wf hfirst hfollow h] at hget
  exact (mem_writers_table wf hfirst hfollow h).1 (List.mem_of_getLast? hget)

end Filled

/-- In a separated grammar what follows a nonterminal that was replaced
by the empty word does not begin it. -/
theorem Separated.eq_epsilon (hs : g.Separated f n) (hf : g.FirstClosed f)
    (hp : p ∈ g.productions) (hε : p.isEpsilon) (ha : a ∈ p.columns f n) (hbegins : a ∈ f p.lhs) :
    a = .epsilon := by
  have hvanish : .epsilon ∈ f p.lhs := by
    refine hf p hp _ ?_
    rw [Production.isEpsilon_iff.1 hε]
    exact mem_firstOfSequence_epsilon.2 rfl
  exact hs.vanishing p.lhs (lhs_mem_nonterminals hp) hvanish a hbegins
    ((WellFormed.mem_columns_epsilon hε).1 ha)

/-- Two alternatives that claim one cell begin alike, or one of them
vanishes before what the other begins with. -/
theorem clash_of_columns (wf : g.WellFormed) (hf : g.FirstClosed f) (hp : p ∈ g.productions)
    (hq : q ∈ g.productions) (hlhs : p.lhs = q.lhs) (hne : p ≠ q) (hpa : a ∈ p.columns f n)
    (hqa : a ∈ q.columns f n) :
    a ≠ .epsilon ∧ ((a ∈ firstOfSequence f p.rhs ∧ a ∈ firstOfSequence f q.rhs) ∨
      (.epsilon ∈ f p.lhs ∧ a ∈ f p.lhs ∧ a ∈ n p.lhs)) := by
  have hbeside : ∀ p ∈ g.productions, ∀ q ∈ g.productions, p.lhs = q.lhs → p.isEpsilon →
      q.isEpsilon = false → a ∈ p.columns f n → a ∈ q.columns f n →
        a ≠ .epsilon ∧ .epsilon ∈ f p.lhs ∧ a ∈ f p.lhs ∧ a ∈ n p.lhs := by
    intro p hp q hq hlhs hε hnε hpa hqa
    obtain ⟨hfirst, haε⟩ := wf.mem_firstOfSequence_of_columns hq hnε hqa
    refine ⟨haε, hf p hp _ ?_, hlhs ▸ hf q hq a hfirst, (WellFormed.mem_columns_epsilon hε).1 hpa⟩
    rw [Production.isEpsilon_iff.1 hε]
    exact mem_firstOfSequence_epsilon.2 rfl
  cases hεp : p.isEpsilon with
  | true =>
    cases hεq : q.isEpsilon with
    | true =>
      have hrhs := (Production.isEpsilon_iff.1 hεp).trans (Production.isEpsilon_iff.1 hεq).symm
      exact absurd (by cases p; cases q; simp_all) hne
    | false => exact (hbeside p hp q hq hlhs hεp hεq hpa hqa).imp_right Or.inr
  | false =>
    cases hεq : q.isEpsilon with
    | true => exact (hlhs ▸ hbeside q hq p hp hlhs.symm hεq hεp hqa hpa).imp_right Or.inr
    | false =>
      obtain ⟨hpfirst, haε⟩ := wf.mem_firstOfSequence_of_columns hp hεp hpa
      obtain ⟨hqfirst, -⟩ := wf.mem_firstOfSequence_of_columns hq hεq hqa
      exact ⟨haε, Or.inl ⟨hpfirst, hqfirst⟩⟩

theorem Separated.claim_unique (wf : g.WellFormed) (hs : g.Separated f n)
    (hf : g.FirstClosed f) (hp : p ∈ g.productions) (hq : q ∈ g.productions)
    (hlhs : p.lhs = q.lhs) (hpa : a ∈ p.columns f n) (hqa : a ∈ q.columns f n) : p = q := by
  by_contra hne
  obtain ⟨haε, ⟨hpfirst, hqfirst⟩ | ⟨hε, hfirst, hfollow⟩⟩ :=
    clash_of_columns wf hf hp hq hlhs hne hpa hqa
  · exact haε (hs.alternatives p hp q hq hlhs hne a hpfirst hqfirst)
  · exact haε (hs.vanishing p.lhs (lhs_mem_nonterminals hp) hε a hfirst hfollow)

theorem Separated.get?_table (wf : g.WellFormed) (hfirst : ∀ A ∈ g.nonterminals, A ∈ first.keys)
    (hfollow : ∀ A ∈ g.nonterminals, A ∈ follow.keys) (h : g.table first follow false = .ok t)
    (hs : g.Separated first.find follow.find) (hf : g.FirstClosed first.find)
    (hp : p ∈ g.productions) (ha : a ∈ p.columns first.find follow.find) :
    t.get? p.lhs a = some p := by
  have hwriter := (mem_writers_table wf hfirst hfollow h).2 ⟨hp, rfl, ha⟩
  rw [Grammar.get?_table wf hfirst hfollow h,
    List.getLast?_eq_some_getLast (List.ne_nil_of_mem hwriter)]
  obtain ⟨hq, hlhs, hqa⟩ := (mem_writers_table wf hfirst hfollow h).1
    (List.getLast_mem (List.ne_nil_of_mem hwriter))
  exact congrArg some (hs.claim_unique wf hf hq hp hlhs hqa ha)

end Grammar

end Predictive
