import Predictive.Conflict.Basic
import Predictive.Proofs.Sets.Sequence

/-!
# What the search for conflicts finds

Over maps with a set for each nonterminal the search cannot fail, and
what it lists is a plain concatenation: rule by rule, the clashes
between pairs of alternatives, then the clash with FOLLOW
(`Grammar.conflicts_eq`). The list is empty exactly when the grammar is
`Separated`: no two alternatives of a nonterminal can begin alike, and
none that can vanish begins with what follows it.
-/

namespace Predictive

namespace Conflict

variable {first follow : SetMap} {f n : Symbol → SymbolSet} {A : Symbol}

/-! ## Pairs -/

theorem mem_pairs {α : Type} {l : List α} {a b : α} (h : (a, b) ∈ pairs l) :
    a ∈ l ∧ b ∈ l := by
  induction l with
  | nil => cases h
  | cons c l ih =>
    rcases List.mem_append.1 h with h | h
    · obtain ⟨d, hd, heq⟩ := List.mem_map.1 h
      obtain ⟨rfl, rfl⟩ := Prod.mk.inj heq
      exact ⟨List.mem_cons_self .., List.mem_cons_of_mem _ hd⟩
    · exact ⟨List.mem_cons_of_mem _ (ih h).1, List.mem_cons_of_mem _ (ih h).2⟩

theorem ne_of_mem_pairs {α : Type} {l : List α} (hl : l.Nodup) {a b : α}
    (h : (a, b) ∈ pairs l) : a ≠ b := by
  induction l with
  | nil => cases h
  | cons c l ih =>
    obtain ⟨hc, hl⟩ := List.nodup_cons.1 hl
    rcases List.mem_append.1 h with h | h
    · obtain ⟨d, hd, heq⟩ := List.mem_map.1 h
      obtain ⟨rfl, rfl⟩ := Prod.mk.inj heq
      rintro rfl
      exact hc hd
    · exact ih hl h

theorem mem_pairs_of_ne {α : Type} {l : List α} {a b : α} (ha : a ∈ l) (hb : b ∈ l)
    (hne : a ≠ b) : (a, b) ∈ pairs l ∨ (b, a) ∈ pairs l := by
  induction l with
  | nil => cases ha
  | cons c l ih =>
    rcases List.mem_cons.1 ha with rfl | hal
    · rcases List.mem_cons.1 hb with rfl | hbl
      · exact absurd rfl hne
      · exact Or.inl (List.mem_append_left _ (List.mem_map.2 ⟨b, hbl, rfl⟩))
    · rcases List.mem_cons.1 hb with rfl | hbl
      · exact Or.inr (List.mem_append_left _ (List.mem_map.2 ⟨a, hal, rfl⟩))
      · exact (ih hal hbl).imp (List.mem_append_right _) (List.mem_append_right _)

/-! ## The listing -/

theorem ofCommon_eq_nil {make : SymbolSet → Conflict} {S : SymbolSet} :
    ofCommon make S = [] ↔ ∀ t ∈ S, t = .epsilon := by
  have hempty : (S.erase .epsilon).isEmpty ↔ ∀ t ∈ S, t = .epsilon := by
    rw [SymbolSet.isEmpty_iff]
    simp [SymbolSet.mem_erase]
  rw [← hempty, ofCommon]
  cases (S.erase .epsilon).isEmpty <;> simp

theorem mem_ofCommon {make : SymbolSet → Conflict} {S : SymbolSet} {c : Conflict} :
    c ∈ ofCommon make S ↔ (∃ t ∈ S, t ≠ .epsilon) ∧ c = make (S.erase .epsilon) := by
  have hnil : ofCommon make S = [] ↔ ¬ ∃ t ∈ S, t ≠ .epsilon := by
    rw [ofCommon_eq_nil]
    simp only [not_exists, not_and, Decidable.not_not]
  by_cases h : ∃ t ∈ S, t ≠ .epsilon
  · have hfull : (S.erase .epsilon).isEmpty = false := by
      rw [Bool.eq_false_iff]
      intro hempty
      rw [ofCommon, if_pos hempty] at hnil
      exact hnil.1 rfl h
    rw [ofCommon, hfull, if_neg Bool.false_ne_true, List.mem_singleton]
    exact (and_iff_right h).symm
  · rw [hnil.2 h]
    exact iff_of_false List.not_mem_nil fun hc => h hc.1

/-- The clash of two alternatives, if there is one. -/
def ofBodies (f : Symbol → SymbolSet) (A : Symbol) (b : List Symbol × List Symbol) :
    List Conflict :=
  ofCommon (firstFirst A ⟨A, b.1⟩ ⟨A, b.2⟩) (firstOfSequence f b.1 ∩ firstOfSequence f b.2)

/-- The clash of a nonterminal with what follows it, if there is one. -/
def ofVanishing (f n : Symbol → SymbolSet) (A : Symbol) : List Conflict :=
  if .epsilon ∈ f A then ofCommon (firstFollow A) ((f A).erase .epsilon ∩ n A) else []

theorem mem_ofVanishing {c : Conflict} :
    c ∈ ofVanishing f n A ↔ .epsilon ∈ f A ∧ (∃ t ∈ (f A).erase .epsilon ∩ n A, t ≠ .epsilon) ∧
      c = .firstFollow A (((f A).erase .epsilon ∩ n A).erase .epsilon) := by
  rw [ofVanishing]
  split
  · next hε => exact mem_ofCommon.trans (and_iff_right hε).symm
  · next hε => exact iff_of_false List.not_mem_nil fun h => hε h.1

theorem ofPairs_eq {l : List (List Symbol × List Symbol)}
    (h : ∀ b ∈ l, (∀ B ∈ b.1, B.isNonterminal → B ∈ first.keys) ∧
      ∀ B ∈ b.2, B.isNonterminal → B ∈ first.keys) :
    ofPairs first A l = .ok (l.flatMap (ofBodies first.find A)) := by
  induction l with
  | nil => rfl
  | cons b l ih =>
    obtain ⟨h₁, h₂⟩ := h b (List.mem_cons_self ..)
    rw [ofPairs, SetMap.firstOfSequence_eq h₁, SetMap.firstOfSequence_eq h₂,
      ih fun b hb => h b (List.mem_cons_of_mem _ hb)]
    rfl

theorem ofRule_eq {bodies : List (List Symbol)} (hA : A ∈ first.keys) (hA' : A ∈ follow.keys)
    (h : ∀ body ∈ bodies, ∀ B ∈ body, B.isNonterminal → B ∈ first.keys) :
    ofRule first follow A bodies = .ok ((pairs bodies).flatMap (ofBodies first.find A) ++
      ofVanishing first.find follow.find A) := by
  have hpairs := ofPairs_eq (A := A) fun b hb =>
    And.intro (h b.1 (mem_pairs hb).1) (h b.2 (mem_pairs hb).2)
  rw [ofRule, hpairs, SetMap.require_of_mem hA, SetMap.require_of_mem hA', ofVanishing]
  by_cases hε : Symbol.epsilon ∈ first.find A
  · rw [if_pos hε]
    show (if _ then _ else _) = _
    rw [if_pos hε]
    rfl
  · rw [if_neg hε, List.append_nil]
    show (if _ then _ else _) = _
    rw [if_neg hε]
    rfl

theorem ofRules_eq {rules : List (Symbol × List (List Symbol))}
    (h : ∀ r ∈ rules, r.1 ∈ first.keys ∧ r.1 ∈ follow.keys ∧
      ∀ body ∈ r.2, ∀ B ∈ body, B.isNonterminal → B ∈ first.keys) :
    ofRules first follow rules = .ok (rules.flatMap fun r =>
      (pairs r.2).flatMap (ofBodies first.find r.1) ++
        ofVanishing first.find follow.find r.1) := by
  induction rules with
  | nil => rfl
  | cons r rules ih =>
    obtain ⟨A, bodies⟩ := r
    obtain ⟨hA, hA', hbodies⟩ := h (A, bodies) (List.mem_cons_self ..)
    rw [ofRules, ofRule_eq hA hA' hbodies, ih fun r hr => h r (List.mem_cons_of_mem _ hr)]
    rfl

end Conflict

namespace Grammar

variable {g : Grammar} {first follow : SetMap} {f n : Symbol → SymbolSet}

theorem WellFormed.defined_of_rule (wf : g.WellFormed) {A : Symbol} {bodies : List (List Symbol)}
    (h : (A, bodies) ∈ g.rules.entries) :
    ∀ body ∈ bodies, ∀ B ∈ body, B.isNonterminal → B ∈ g.nonterminals :=
  fun body hb => wf.defined ⟨A, body⟩ (mem_productions.2 ⟨bodies, h, hb⟩)

theorem conflicts_eq (wf : g.WellFormed) (hfirst : ∀ A ∈ g.nonterminals, A ∈ first.keys)
    (hfollow : ∀ A ∈ g.nonterminals, A ∈ follow.keys) :
    g.conflicts first follow = .ok (g.rules.entries.flatMap fun r =>
      (Conflict.pairs r.2).flatMap (Conflict.ofBodies first.find r.1) ++
        Conflict.ofVanishing first.find follow.find r.1) := by
  refine Conflict.ofRules_eq fun r hr => ?_
  have hA : r.1 ∈ g.nonterminals := List.mem_map.2 ⟨r, hr, rfl⟩
  exact ⟨hfirst _ hA, hfollow _ hA,
    fun body hb B hB hn => hfirst B (wf.defined_of_rule hr body hb B hB hn)⟩

/-- No two alternatives of a nonterminal begin alike, and none that can
vanish begins with what follows it. -/
structure Separated (g : Grammar) (f n : Symbol → SymbolSet) : Prop where
  alternatives : ∀ p ∈ g.productions, ∀ q ∈ g.productions, p.lhs = q.lhs → p ≠ q →
    ∀ t, t ∈ firstOfSequence f p.rhs → t ∈ firstOfSequence f q.rhs → t = .epsilon
  vanishing : ∀ A ∈ g.nonterminals, .epsilon ∈ f A → ∀ t, t ∈ f A → t ∈ n A → t = .epsilon

theorem exists_rule_of_lhs_eq {p q : Production} (hp : p ∈ g.productions) (hq : q ∈ g.productions)
    (h : p.lhs = q.lhs) :
    ∃ bodies, (p.lhs, bodies) ∈ g.rules.entries ∧ p.rhs ∈ bodies ∧ q.rhs ∈ bodies := by
  obtain ⟨bodies, hmem, hin⟩ := mem_productions.1 hp
  obtain ⟨bodies', hmem', hin'⟩ := mem_productions.1 hq
  rw [← h, ← OrderedMap.get?_eq_some, OrderedMap.get?_eq_some.2 hmem] at hmem'
  obtain rfl := Option.some.inj hmem'
  exact ⟨bodies, hmem, hin, hin'⟩

theorem conflicts_eq_nil_iff (wf : g.WellFormed) (hfirst : ∀ A ∈ g.nonterminals, A ∈ first.keys)
    (hfollow : ∀ A ∈ g.nonterminals, A ∈ follow.keys) :
    g.conflicts first follow = .ok [] ↔ g.Separated first.find follow.find := by
  rw [conflicts_eq wf hfirst hfollow, Except.ok.injEq]
  simp only [List.flatMap_eq_nil_iff, List.append_eq_nil_iff]
  constructor
  · intro h
    constructor
    · intro p hp q hq hlhs hne t ht ht'
      obtain ⟨bodies, hmem, hin, hin'⟩ := exists_rule_of_lhs_eq hp hq hlhs
      have hrhs : p.rhs ≠ q.rhs := fun he => hne (Production.ext hlhs he)
      rcases Conflict.mem_pairs_of_ne hin hin' hrhs with hpair | hpair
      · exact Conflict.ofCommon_eq_nil.1 ((h _ hmem).1 _ hpair) t (SymbolSet.mem_inter.2 ⟨ht, ht'⟩)
      · exact Conflict.ofCommon_eq_nil.1 ((h _ hmem).1 _ hpair) t (SymbolSet.mem_inter.2 ⟨ht', ht⟩)
    · intro A hA hε t ht ht'
      obtain ⟨⟨B, bodies⟩, hmem, rfl⟩ := List.mem_map.1 hA
      have hnil := (h _ hmem).2
      rw [Conflict.ofVanishing, if_pos hε, Conflict.ofCommon_eq_nil] at hnil
      by_cases he : t = .epsilon
      · exact he
      · exact hnil t (SymbolSet.mem_inter.2 ⟨SymbolSet.mem_erase.2 ⟨ht, he⟩, ht'⟩)
  · rintro ⟨halternatives, hvanishing⟩ ⟨A, bodies⟩ hmem
    constructor
    · rintro ⟨b, b'⟩ hpair
      obtain ⟨hb, hb'⟩ := Conflict.mem_pairs hpair
      refine Conflict.ofCommon_eq_nil.2 fun t ht => ?_
      obtain ⟨ht, ht'⟩ := SymbolSet.mem_inter.1 ht
      refine halternatives ⟨A, b⟩ (mem_productions.2 ⟨bodies, hmem, hb⟩) ⟨A, b'⟩
        (mem_productions.2 ⟨bodies, hmem, hb'⟩) rfl (fun he => ?_) t ht ht'
      exact Conflict.ne_of_mem_pairs (wf.distinct A bodies hmem) hpair
        (congrArg Production.rhs he)
    · rw [Conflict.ofVanishing]
      split
      · next hε =>
        refine Conflict.ofCommon_eq_nil.2 fun t ht => ?_
        obtain ⟨ht, ht'⟩ := SymbolSet.mem_inter.1 ht
        exact hvanishing A (List.mem_map.2 ⟨_, hmem, rfl⟩) hε t (SymbolSet.mem_erase.1 ht).1 ht'
      · rfl

/-! ## What a conflict reports -/

/-- The symbols at which a conflict says that the grammar is not
separated. -/
def Reports (g : Grammar) (f n : Symbol → SymbolSet) : Conflict → Prop
  | .firstFirst A p q S => p ∈ g.productions ∧ q ∈ g.productions ∧ p.lhs = A ∧ q.lhs = A ∧ p ≠ q ∧
      ∀ t ∈ S, t ∈ firstOfSequence f p.rhs ∧ t ∈ firstOfSequence f q.rhs ∧ t ≠ .epsilon
  | .firstFollow A S => A ∈ g.nonterminals ∧ .epsilon ∈ f A ∧
      ∀ t ∈ S, t ∈ f A ∧ t ∈ n A ∧ t ≠ .epsilon

section Found

variable {cs : List Conflict} (wf : g.WellFormed) (hfirst : ∀ A ∈ g.nonterminals, A ∈ first.keys)
  (hfollow : ∀ A ∈ g.nonterminals, A ∈ follow.keys) (h : g.conflicts first follow = .ok cs)
include wf hfirst hfollow h

theorem mem_conflicts {c : Conflict} :
    c ∈ cs ↔ ∃ r ∈ g.rules.entries,
      (∃ b ∈ Conflict.pairs r.2, c ∈ Conflict.ofBodies first.find r.1 b) ∨
        c ∈ Conflict.ofVanishing first.find follow.find r.1 := by
  obtain rfl := Except.ok.inj ((conflicts_eq wf hfirst hfollow).symm.trans h)
  simp only [List.mem_flatMap, List.mem_append]

theorem reports_of_mem_conflicts {c : Conflict} (hc : c ∈ cs) :
    g.Reports first.find follow.find c := by
  obtain ⟨⟨A, bodies⟩, hrule, ⟨⟨b, b'⟩, hpair, hc⟩ | hc⟩ := (mem_conflicts wf hfirst hfollow h).1 hc
  · obtain ⟨-, rfl⟩ := Conflict.mem_ofCommon.1 hc
    obtain ⟨hb, hb'⟩ := Conflict.mem_pairs hpair
    refine ⟨mem_productions.2 ⟨bodies, hrule, hb⟩, mem_productions.2 ⟨bodies, hrule, hb'⟩, rfl, rfl,
      fun he => ?_, fun t ht => ?_⟩
    · exact Conflict.ne_of_mem_pairs (wf.distinct A bodies hrule) hpair
        (congrArg Production.rhs he)
    · obtain ⟨hcommon, hε⟩ := SymbolSet.mem_erase.1 ht
      obtain ⟨ht, ht'⟩ := SymbolSet.mem_inter.1 hcommon
      exact ⟨ht, ht', hε⟩
  · obtain ⟨hε, -, rfl⟩ := Conflict.mem_ofVanishing.1 hc
    refine ⟨List.mem_map.2 ⟨_, hrule, rfl⟩, hε, fun t ht => ?_⟩
    obtain ⟨hcommon, htε⟩ := SymbolSet.mem_erase.1 ht
    obtain ⟨ht, ht'⟩ := SymbolSet.mem_inter.1 hcommon
    exact ⟨(SymbolSet.mem_erase.1 ht).1, ht', htε⟩

theorem exists_mem_terminals {c : Conflict} (hc : c ∈ cs) : ∃ t, t ∈ c.terminals := by
  obtain ⟨r, -, ⟨b, -, hc⟩ | hc⟩ := (mem_conflicts wf hfirst hfollow h).1 hc
  · obtain ⟨⟨t, ht⟩, rfl⟩ := Conflict.mem_ofCommon.1 hc
    exact ⟨t, SymbolSet.mem_erase.2 ht⟩
  · obtain ⟨-, ⟨t, ht⟩, rfl⟩ := Conflict.mem_ofVanishing.1 hc
    exact ⟨t, SymbolSet.mem_erase.2 ht⟩

/-- A symbol with which two alternatives begin is reported for the
two. -/
theorem exists_firstFirst {p q : Production} (hp : p ∈ g.productions) (hq : q ∈ g.productions)
    (hlhs : p.lhs = q.lhs) (hne : p ≠ q) {t : Symbol} (ht : t ∈ firstOfSequence first.find p.rhs)
    (ht' : t ∈ firstOfSequence first.find q.rhs) (hε : t ≠ .epsilon) :
    ∃ S, t ∈ S ∧ (.firstFirst p.lhs p q S ∈ cs ∨ .firstFirst p.lhs q p S ∈ cs) := by
  obtain ⟨A, body⟩ := p
  obtain ⟨B, body'⟩ := q
  obtain rfl : A = B := hlhs
  obtain ⟨bodies, hrule, hin, hin'⟩ := exists_rule_of_lhs_eq hp hq rfl
  have hpair : ∀ b ∈ Conflict.pairs bodies, t ∈ firstOfSequence first.find b.1 →
      t ∈ firstOfSequence first.find b.2 →
        ∃ S, t ∈ S ∧ .firstFirst A ⟨A, b.1⟩ ⟨A, b.2⟩ S ∈ cs := by
    intro b hb ht ht'
    have hcommon := SymbolSet.mem_inter.2 ⟨ht, ht'⟩
    have hfound : Conflict.firstFirst A ⟨A, b.1⟩ ⟨A, b.2⟩ _ ∈
        Conflict.ofBodies first.find A b := Conflict.mem_ofCommon.2 ⟨⟨t, hcommon, hε⟩, rfl⟩
    exact ⟨_, SymbolSet.mem_erase.2 ⟨hcommon, hε⟩,
      (mem_conflicts wf hfirst hfollow h).2 ⟨_, hrule, Or.inl ⟨b, hb, hfound⟩⟩⟩
  have hrhs : body ≠ body' := fun he => hne (he ▸ rfl)
  rcases Conflict.mem_pairs_of_ne hin hin' hrhs with hb | hb
  · obtain ⟨S, hS, hc⟩ := hpair _ hb ht ht'
    exact ⟨S, hS, Or.inl hc⟩
  · obtain ⟨S, hS, hc⟩ := hpair _ hb ht' ht
    exact ⟨S, hS, Or.inr hc⟩

/-- A symbol with which a vanishing nonterminal begins and which follows
it is reported. -/
theorem exists_firstFollow {A t : Symbol} (hA : A ∈ g.nonterminals)
    (hε : .epsilon ∈ first.find A) (ht : t ∈ first.find A) (ht' : t ∈ follow.find A)
    (htε : t ≠ .epsilon) : ∃ S, t ∈ S ∧ .firstFollow A S ∈ cs := by
  obtain ⟨⟨A, bodies⟩, hrule, rfl⟩ := List.mem_map.1 hA
  have hcommon := SymbolSet.mem_inter.2 ⟨SymbolSet.mem_erase.2 ⟨ht, htε⟩, ht'⟩
  have hfound := Conflict.mem_ofVanishing.2 ⟨hε, ⟨t, hcommon, htε⟩, rfl⟩
  exact ⟨_, SymbolSet.mem_erase.2 ⟨hcommon, htε⟩,
    (mem_conflicts wf hfirst hfollow h).2 ⟨_, hrule, Or.inr hfound⟩⟩

end Found

end Grammar

end Predictive
