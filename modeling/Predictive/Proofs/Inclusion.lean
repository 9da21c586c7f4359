import Predictive.Proofs.Conflict.Collisions
import Predictive.Proofs.Conflict.Listing

/-!
# Grammars within grammars

A grammar is within another with the same start symbol that has all its
nonterminals and productions, and perhaps more (`Grammar.Within`). The
order in which they were declared plays no part in this.

What can be derived with some productions can be derived with more. FIRST
and FOLLOW are what can be derived, so both grow, and with them the
columns that call for a production, the writers of a cell, and the
symbols that a conflict reports. A grammar within an LL(1) grammar is
therefore LL(1) (`Within.isLL1`).
-/

namespace Predictive

namespace Grammar

/-- The second grammar has all that the first has. -/
structure Within (g h : Grammar) : Prop where
  start : g.start = h.start
  nonterminals : ∀ A ∈ g.nonterminals, A ∈ h.nonterminals
  productions : ∀ p ∈ g.productions, p ∈ h.productions

namespace Within

variable {g h : Grammar} {l k : List Symbol} {A a x : Symbol} {p : Production}

/-! ## Derivations -/

theorem produces (hgh : g.Within h) (hstep : g.Produces l k) : h.Produces l k := by
  obtain ⟨before, after, p, mem⟩ := hstep
  exact .intro before after p (hgh.productions p mem)

theorem derives (hgh : g.Within h) (hd : g.Derives l k) : h.Derives l k := by
  induction hd with
  | refl => exact .refl _
  | head step _ ih => exact .head (hgh.produces step) ih

theorem mem_terminals (hgh : g.Within h) (hx : x ∈ g.terminals) : x ∈ h.terminals := by
  obtain ⟨ht, p, mem, hp⟩ := Grammar.mem_terminals.1 hx
  exact Grammar.mem_terminals.2 ⟨ht, p, hgh.productions p mem, hp⟩

theorem firstOf (hgh : g.Within h) (hx : g.FirstOf l x) : h.FirstOf l x := by
  rcases hx with ⟨ht, rest, hd⟩ | ⟨hε, hd⟩
  · exact Or.inl ⟨hgh.mem_terminals ht, rest, hgh.derives hd⟩
  · exact Or.inr ⟨hε, hgh.derives hd⟩

theorem followOf (hgh : g.Within h) (hx : g.FollowOf A x) : h.FollowOf A x := by
  rcases hx with ⟨ht, B, hB, u, v, hd⟩ | ⟨he, u, hd⟩
  · exact Or.inl ⟨hgh.mem_terminals ht, B, hgh.nonterminals B hB, u, v, hgh.derives hd⟩
  · exact Or.inr ⟨he, u, hgh.start ▸ hgh.derives hd⟩

/-! ## Studies -/

variable {s s' : Study} (hgh : g.Within h) (wg : g.WellFormed) (wh : h.WellFormed)
  (hs : s.IsOf g) (hs' : s'.IsOf h)
include hgh wg wh hs hs'

theorem first_subset (hA : A ∈ g.nonterminals) : s.first.sets.find A ⊆ s'.first.sets.find A := by
  intro x hx
  rw [hs.first, mem_first_iff wg hA] at hx
  rw [hs'.first, mem_first_iff wh (hgh.nonterminals A hA)]
  exact hgh.firstOf hx

theorem follow_subset (hA : A ∈ g.nonterminals) :
    s.follow.sets.find A ⊆ s'.follow.sets.find A := by
  intro x hx
  rw [mem_follow_iff wg (hs.first ▸ hs.follow) hA] at hx
  rw [mem_follow_iff wh (hs'.first ▸ hs'.follow) (hgh.nonterminals A hA)]
  exact hgh.followOf hx

theorem firstOfSequence_subset (mem : p ∈ g.productions) :
    firstOfSequence s.first.sets.find p.rhs ⊆ firstOfSequence s'.first.sets.find p.rhs :=
  firstOfSequence_mono fun A hA hn =>
    hgh.first_subset wg wh hs hs' (wg.defined p mem A hA hn)

theorem mem_columns (mem : p ∈ g.productions)
    (ha : a ∈ p.columns s.first.sets.find s.follow.sets.find) :
    a ∈ p.columns s'.first.sets.find s'.follow.sets.find := by
  cases hε : p.isEpsilon with
  | true =>
    rw [WellFormed.mem_columns_epsilon hε] at ha ⊢
    exact hgh.follow_subset wg wh hs hs' (lhs_mem_nonterminals mem) a ha
  | false =>
    obtain ⟨head, rest, hrhs⟩ := List.exists_cons_of_ne_nil (wg.normal p mem).ne_nil
    rw [wg.mem_columns mem hε hrhs] at ha
    rw [wh.mem_columns (hgh.productions p mem) hε hrhs]
    refine ⟨firstOfSequence_mono (fun B hB hn => ?_) a ha.1, ha.2⟩
    obtain rfl := List.mem_singleton.1 hB
    exact hgh.first_subset wg wh hs hs' (wg.defined p mem B (by simp [hrhs]) hn)

theorem mem_writers (hp : p ∈ s.table.writers A a) : p ∈ s'.table.writers A a := by
  obtain ⟨mem, hlhs, ha⟩ := (hs.mem_writers wg).1 hp
  exact (hs'.mem_writers wh).2
    ⟨hgh.productions p mem, hlhs, hgh.mem_columns wg wh hs hs' mem ha⟩

/-- Each terminal of a conflict is reported in a larger grammar by a
conflict about the same. -/
theorem exists_alike_of_mem {c : Conflict} (hc : c ∈ s.conflicts) {t : Symbol}
    (ht : t ∈ c.terminals) : ∃ c' ∈ s'.conflicts, c.Alike c' ∧ t ∈ c'.terminals := by
  have hfirst : ∀ A ∈ h.nonterminals, A ∈ s'.first.sets.keys := fun _ => hs'.mem_keys_first
  have hfollow : ∀ A ∈ h.nonterminals, A ∈ s'.follow.sets.keys := fun _ => hs'.mem_keys_follow wh
  have hreports := reports_of_mem_conflicts wg (fun _ => hs.mem_keys_first)
    (fun _ => hs.mem_keys_follow wg) hs.conflicts hc
  cases c with
  | firstFirst A p q S =>
    obtain ⟨hp, hq, rfl, hlhs, hne, hS⟩ := hreports
    obtain ⟨htp, htq, hε⟩ := hS t ht
    have htp := hgh.firstOfSequence_subset wg wh hs hs' hp t htp
    have htq := hgh.firstOfSequence_subset wg wh hs hs' hq t htq
    obtain ⟨S', ht', hc' | hc'⟩ := exists_firstFirst wh hfirst hfollow hs'.conflicts
      (hgh.productions p hp) (hgh.productions q hq) hlhs.symm hne htp htq hε
    · exact ⟨_, hc', ⟨rfl, Or.inl ⟨rfl, rfl⟩⟩, ht'⟩
    · -- the larger grammar may declare the two the other way round
      exact ⟨_, hc', ⟨rfl, Or.inr ⟨rfl, rfl⟩⟩, ht'⟩
  | firstFollow A S =>
    obtain ⟨hA, hvanish, hS⟩ := hreports
    obtain ⟨hbegins, hbehind, hε⟩ := hS t ht
    have hsubset := hgh.first_subset wg wh hs hs' hA
    obtain ⟨S', ht', hc'⟩ := exists_firstFollow wh hfirst hfollow hs'.conflicts
      (hgh.nonterminals A hA) (hsubset _ hvanish) (hsubset t hbegins)
      (hgh.follow_subset wg wh hs hs' hA t hbehind) hε
    exact ⟨_, hc', rfl, ht'⟩

/-- What a conflict reports is reported in a larger grammar, for the same
alternatives or for the same nonterminal. -/
theorem exists_conflict {c : Conflict} (hc : c ∈ s.conflicts) {t : Symbol} (ht : t ∈ c.terminals) :
    ∃ c' ∈ s'.conflicts, c'.kind = c.kind ∧ c'.nonterminal = c.nonterminal ∧
      (∀ p, p ∈ c'.productions ↔ p ∈ c.productions) ∧ t ∈ c'.terminals := by
  obtain ⟨c', hc', halike, ht'⟩ := hgh.exists_alike_of_mem wg wh hs hs' hc ht
  exact ⟨c', hc', halike.kind_eq.symm, halike.nonterminal_eq.symm,
    fun _ => halike.mem_productions_iff.symm, ht'⟩

theorem isLL1 (hll1 : s'.isLL1) : s.isLL1 := by
  refine List.isEmpty_iff.2 (List.eq_nil_iff_forall_not_mem.2 fun c hc => ?_)
  obtain ⟨t, ht⟩ := exists_mem_terminals wg (fun _ => hs.mem_keys_first)
    (fun _ => hs.mem_keys_follow wg) hs.conflicts hc
  obtain ⟨c', hc', -⟩ := hgh.exists_alike_of_mem wg wh hs hs' hc ht
  rw [List.isEmpty_iff.1 hll1] at hc'
  cases hc'

/-- Where the larger grammar is LL(1), its cells hold what those of the
smaller hold. -/
theorem get? (hll1 : s'.isLL1) (hp : s.table.get? A a = some p) : s'.table.get? A a = some p := by
  obtain ⟨mem, rfl, ha⟩ := hs.mem_of_get? wg hp
  exact hs'.get?_of_mem_columns wh ((hs'.isLL1_iff wh).1 hll1) (hgh.productions p mem)
    (hgh.mem_columns wg wh hs hs' mem ha)

end Within

end Grammar

end Predictive
