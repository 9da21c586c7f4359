import Predictive.Grammar.Load

/-!
# What loading does

Reading pairs stops at the first thing wrong, but what it comes to needs
no account of that: pairs that are all fit (`IsFit`) are merged one
after the other, and others are refused (`addRules_eq_ok_iff`). A
grammar is loaded when the rules then have a first one and every
nonterminal in use has one (`load_eq_ok_iff`).

So a loaded grammar is well-formed (`wellFormed_of_load`): nothing but
normal right-hand sides gets into a rule, and none of them twice. The
invariant of the rules on the way is `SoundRules`.
-/

namespace Predictive

/-- What a computation comes to, its parts came to. -/
theorem Except.bind_eq_ok {ε α β : Type} {x : Except ε α} {f : α → Except ε β} {b : β} :
    x >>= f = .ok b ↔ ∃ a, x = .ok a ∧ f a = .ok b := by
  cases x with
  | error e => simp [bind, Except.bind]
  | ok a => simp [bind, Except.bind]

namespace Grammar

variable {pairs : List (Text × List Text)} {pair : Text × List Text} {alternative : Text}
  {g : Grammar}

/-! ## Alternatives -/

/-- An alternative that can be read: without its blanks it is empty, or
ε alone, or holds neither ε nor the end marker. -/
def IsAlternative (alternative : Text) : Prop :=
  Text.unblank alternative = [] ∨ Text.unblank alternative = [.char 'ε'] ∨
    (.char 'ε' ∉ Text.unblank alternative ∧ .char '$' ∉ Text.unblank alternative)

/-- The right-hand side of an alternative: its symbols without blanks,
and ε when there is none. -/
def normalized (alternative : Text) : List Symbol :=
  if Text.unblank alternative = [] then [.epsilon] else symbolsOf (Text.unblank alternative)

theorem single_mem_symbolsOf {c : CodePoint} {t : Text} :
    Symbol.single c ∈ symbolsOf t ↔ c ∈ t := by
  rw [symbolsOf, List.mem_map]
  constructor
  · rintro ⟨d, hd, he⟩
    obtain rfl : d = c := by simpa [Symbol.single] using he
    exact hd
  · exact fun hc => ⟨c, hc, rfl⟩

theorem readBody_eq_ok_iff {head : Text} {body : List Symbol} :
    readBody head alternative = .ok body ↔
      IsAlternative alternative ∧ body = normalized alternative := by
  have hnil : symbolsOf (Text.unblank alternative) = [] ↔ Text.unblank alternative = [] :=
    List.map_eq_nil_iff
  have halone : symbolsOf (Text.unblank alternative) = [.epsilon] ↔
      Text.unblank alternative = [.char 'ε'] := by
    simp [symbolsOf, List.map_eq_singleton_iff, Symbol.single, Symbol.epsilon]
  have hε : Symbol.epsilon ∈ symbolsOf (Text.unblank alternative) ↔
      .char 'ε' ∈ Text.unblank alternative := single_mem_symbolsOf
  have hend : Symbol.endMarker ∈ symbolsOf (Text.unblank alternative) ↔
      .char '$' ∈ Text.unblank alternative := single_mem_symbolsOf
  simp only [readBody, IsAlternative, normalized, hnil, halone, hε, hend]
  by_cases h : Text.unblank alternative = []
  · simp [h, eq_comm]
  · by_cases h' : Text.unblank alternative = [.char 'ε']
    · simp [h', eq_comm, symbolsOf, Symbol.epsilon]
    · simp only [h, h', or_self, if_false, false_or]
      split
      · simp [*]
      · split <;> simp [*, eq_comm]

theorem readBodies_eq_ok_iff {head : Text} {alternatives : List Text}
    {bodies : List (List Symbol)} :
    readBodies head alternatives = .ok bodies ↔
      (∀ alternative ∈ alternatives, IsAlternative alternative) ∧
        bodies = alternatives.map normalized := by
  induction alternatives generalizing bodies with
  | nil => simp [readBodies, eq_comm]
  | cons alternative rest ih =>
    rw [readBodies, Except.bind_eq_ok, List.forall_mem_cons]
    constructor
    · rintro ⟨body, hbody, h⟩
      obtain ⟨others, hothers, h⟩ := Except.bind_eq_ok.1 h
      obtain ⟨halternative, rfl⟩ := readBody_eq_ok_iff.1 hbody
      obtain ⟨hrest, rfl⟩ := ih.1 hothers
      exact ⟨⟨halternative, hrest⟩, (Except.ok.inj h).symm⟩
    · rintro ⟨⟨halternative, hrest⟩, rfl⟩
      exact ⟨_, readBody_eq_ok_iff.2 ⟨halternative, rfl⟩,
        Except.bind_eq_ok.2 ⟨_, ih.2 ⟨hrest, rfl⟩, rfl⟩⟩

/-! ## Pairs -/

def headOf (pair : Text × List Text) : Symbol := ⟨Text.strip pair.1⟩

/-- The left-hand side is a capital letter, and the alternatives can be
read. -/
structure IsFit (pair : Text × List Text) : Prop where
  head : (headOf pair).isNonterminal
  alternatives : ∀ alternative ∈ pair.2, IsAlternative alternative

/-- The rules with a pair merged in. -/
def merge (rules : OrderedMap Symbol (List (List Symbol))) (pair : Text × List Text) :
    OrderedMap Symbol (List (List Symbol)) :=
  rules.alter (headOf pair) fun old => appendNew (old.getD []) (pair.2.map normalized)

/-- The rules of pairs, whether they are fit or not. -/
def merged (pairs : List (Text × List Text)) : OrderedMap Symbol (List (List Symbol)) :=
  pairs.foldl merge ∅

theorem addRule_eq_ok_iff {rules rules' : OrderedMap Symbol (List (List Symbol))} :
    addRule rules pair = .ok rules' ↔ IsFit pair ∧ rules' = merge rules pair := by
  simp only [addRule]
  split
  · next hhead =>
    rw [Except.bind_eq_ok]
    constructor
    · rintro ⟨bodies, hbodies, h⟩
      obtain ⟨halternatives, rfl⟩ := readBodies_eq_ok_iff.1 hbodies
      exact ⟨⟨hhead, halternatives⟩, (Except.ok.inj h).symm⟩
    · rintro ⟨hfit, rfl⟩
      exact ⟨_, readBodies_eq_ok_iff.2 ⟨hfit.alternatives, rfl⟩, rfl⟩
  · next hhead => exact iff_of_false (fun h => by cases h) fun h => hhead h.1.head

theorem addRules_eq_ok_iff {rules rules' : OrderedMap Symbol (List (List Symbol))} :
    addRules rules pairs = .ok rules' ↔
      (∀ pair ∈ pairs, IsFit pair) ∧ rules' = pairs.foldl merge rules := by
  induction pairs generalizing rules with
  | nil => simp [addRules, eq_comm]
  | cons pair pairs ih =>
    rw [addRules, Except.bind_eq_ok, List.forall_mem_cons]
    constructor
    · rintro ⟨next, hnext, h⟩
      obtain ⟨hfit, rfl⟩ := addRule_eq_ok_iff.1 hnext
      exact ⟨⟨hfit, (ih.1 h).1⟩, (ih.1 h).2⟩
    · rintro ⟨⟨hfit, hrest⟩, rfl⟩
      exact ⟨_, addRule_eq_ok_iff.2 ⟨hfit, rfl⟩, ih.2 ⟨hrest, rfl⟩⟩

/-- Nothing is reported when every nonterminal in use has a rule. -/
theorem undefined?_eq_none_iff {g : Grammar} :
    g.undefined? = none ↔
      ∀ p ∈ g.productions, ∀ s ∈ p.rhs, s.isNonterminal → s ∈ g.nonterminals := by
  simp only [undefined?, List.findSome?_eq_none_iff, Option.map_eq_none_iff, List.find?_eq_none,
    Bool.and_eq_true, not_and, Bool.not_eq_true', Bool.not_eq_false, OrderedMap.contains_iff]
  rfl

/-- A grammar is loaded from pairs that are fit: it is the pairs merged,
if that gives it a first rule and a rule for every nonterminal in use. -/
theorem load_eq_ok_iff :
    load pairs = .ok g ↔ (∀ pair ∈ pairs, IsFit pair) ∧ g.rules = merged pairs ∧
      (merged pairs).keys.head? = some g.start ∧
        ∀ p ∈ g.productions, ∀ s ∈ p.rhs, s.isNonterminal → s ∈ g.nonterminals := by
  rw [load, Except.bind_eq_ok]
  constructor
  · rintro ⟨rules, hrules, h⟩
    obtain ⟨hfit, rfl⟩ := addRules_eq_ok_iff.1 hrules
    split at h
    · cases h
    · next start hstart =>
      dsimp only at h
      split at h
      · cases h
      · next hdefined =>
        cases h
        exact ⟨hfit, rfl, hstart, undefined?_eq_none_iff.1 hdefined⟩
  · obtain ⟨start, rules⟩ := g
    rintro ⟨hfit, rfl, hstart, hdefined⟩
    refine ⟨_, addRules_eq_ok_iff.2 ⟨hfit, rfl⟩, ?_⟩
    have hnone := undefined?_eq_none_iff.2 hdefined
    simp only [merged] at hstart hnone
    simp only [hstart, hnone]
    rfl

/-! ## Right-hand sides in normal form -/

theorem normalBody_epsilon : NormalBody [Symbol.epsilon] where
  ne_nil := List.cons_ne_nil _ _
  single s hs := by
    obtain rfl := List.mem_singleton.1 hs
    exact ⟨'ε', rfl, by decide⟩
  epsilon_alone _ := rfl
  no_endMarker := by decide

/-- The symbols of a text without blanks are single visible
code points. -/
theorem mem_symbolsOf_unblank {t : Text} {s : Symbol} (h : s ∈ symbolsOf (Text.unblank t)) :
    ∃ c, s = Symbol.single c ∧ Text.isBlank c = false := by
  obtain ⟨c, hc, rfl⟩ := List.mem_map.1 h
  exact ⟨c, rfl, by simpa [Text.unblank] using (List.mem_filter.1 hc).2⟩

theorem IsAlternative.normalBody (h : IsAlternative alternative) :
    NormalBody (normalized alternative) := by
  rw [normalized]
  split
  · exact normalBody_epsilon
  · next hne =>
    rcases h with hnil | hε | ⟨hε, hend⟩
    · exact absurd hnil hne
    · rw [hε]
      exact normalBody_epsilon
    · exact ⟨fun hnil => hne (List.map_eq_nil_iff.1 hnil), fun _ => mem_symbolsOf_unblank,
        fun he => absurd (single_mem_symbolsOf.1 he) hε, fun he => hend (single_mem_symbolsOf.1 he)⟩

/-! ## Adding alternatives -/

theorem appendNew_cons (old : List (List Symbol)) (body : List Symbol)
    (new : List (List Symbol)) :
    appendNew old (body :: new) =
      appendNew (if body ∈ old then old else old ++ [body]) new := rfl

/-- What is there afterwards was there before or is new. -/
theorem mem_appendNew {old new : List (List Symbol)} {body : List Symbol} :
    body ∈ appendNew old new ↔ body ∈ old ∨ body ∈ new := by
  induction new generalizing old with
  | nil => simp [appendNew]
  | cons b new ih =>
    rw [appendNew_cons, ih]
    split
    · next hb =>
      simp only [List.mem_cons]
      constructor
      · rintro (h | h)
        · exact .inl h
        · exact .inr (.inr h)
      · rintro (h | rfl | h)
        · exact .inl h
        · exact .inl hb
        · exact .inr h
    · rw [List.mem_append, List.mem_singleton, List.mem_cons, or_assoc]

theorem nodup_appendNew {old new : List (List Symbol)} (h : old.Nodup) :
    (appendNew old new).Nodup := by
  induction new generalizing old with
  | nil => exact h
  | cons b new ih =>
    rw [appendNew_cons]
    split
    · exact ih h
    · next hb =>
      refine ih (List.nodup_append.2 ⟨h, by simp, ?_⟩)
      intro a ha c hc
      obtain rfl := List.mem_singleton.1 hc
      rintro rfl
      exact hb ha

/-! ## Sound rules -/

/-- What holds of rules at any time while pairs are read. -/
structure SoundRules (rules : OrderedMap Symbol (List (List Symbol))) : Prop where
  head_nonterminal : ∀ A ∈ rules.keys, A.isNonterminal
  normal : ∀ A bodies, rules.get? A = some bodies → ∀ body ∈ bodies, NormalBody body
  distinct : ∀ A bodies, rules.get? A = some bodies → bodies.Nodup

theorem soundRules_empty : SoundRules ∅ where
  head_nonterminal A hA := by simp at hA
  normal A bodies h := by simp at h
  distinct A bodies h := by simp at h

namespace SoundRules

variable {rules : OrderedMap Symbol (List (List Symbol))}

/-- What is found at a nonterminal, where nothing is found as well. -/
theorem found (hs : SoundRules rules) (A : Symbol) :
    (∀ body ∈ (rules.get? A).getD [], NormalBody body) ∧ ((rules.get? A).getD []).Nodup := by
  cases hbodies : rules.get? A with
  | none => exact ⟨fun _ hb => absurd hb List.not_mem_nil, List.nodup_nil⟩
  | some bodies => exact ⟨hs.normal A bodies hbodies, hs.distinct A bodies hbodies⟩

theorem merge (hs : SoundRules rules) (hfit : IsFit pair) :
    SoundRules (Grammar.merge rules pair) where
  head_nonterminal A hA := by
    rw [Grammar.merge, OrderedMap.keys_alter] at hA
    split at hA
    · exact hs.head_nonterminal A hA
    · rcases List.mem_append.1 hA with hA | hA
      · exact hs.head_nonterminal A hA
      · exact List.mem_singleton.1 hA ▸ hfit.head
  normal A bodies hA := by
    rw [Grammar.merge, OrderedMap.get?_alter] at hA
    split at hA
    · obtain rfl := Option.some.inj hA
      intro body hm
      rcases mem_appendNew.1 hm with hm | hm
      · exact (hs.found (headOf pair)).1 body hm
      · obtain ⟨alternative, halternative, rfl⟩ := List.mem_map.1 hm
        exact (hfit.alternatives alternative halternative).normalBody
    · exact hs.normal A bodies hA
  distinct A bodies hA := by
    rw [Grammar.merge, OrderedMap.get?_alter] at hA
    split at hA
    · obtain rfl := Option.some.inj hA
      exact nodup_appendNew (hs.found (headOf pair)).2
    · exact hs.distinct A bodies hA

theorem foldl_merge (hs : SoundRules rules) (hfit : ∀ pair ∈ pairs, IsFit pair) :
    SoundRules (pairs.foldl Grammar.merge rules) := by
  induction pairs generalizing rules with
  | nil => exact hs
  | cons pair pairs ih =>
    obtain ⟨hpair, hpairs⟩ := List.forall_mem_cons.1 hfit
    exact ih (hs.merge hpair) hpairs

end SoundRules

theorem wellFormed_of_load (h : load pairs = .ok g) : g.WellFormed := by
  obtain ⟨hfit, hrules, hstart, hdefined⟩ := load_eq_ok_iff.1 h
  have hs : SoundRules g.rules := hrules ▸ soundRules_empty.foldl_merge hfit
  rw [← hrules] at hstart
  refine ⟨hstart, hs.head_nonterminal, fun p hp => ?_, fun A bodies hA => ?_, hdefined⟩
  · obtain ⟨bodies, hb, hm⟩ := mem_productions.1 hp
    exact hs.normal _ _ (OrderedMap.get?_eq_some.2 hb) _ hm
  · exact hs.distinct _ _ (OrderedMap.get?_eq_some.2 hA)

end Grammar

end Predictive
