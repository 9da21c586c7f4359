import Predictive.Proofs.Study
import Predictive.Proofs.Tree.Trimmed

/-!
# What an LL(1) grammar leaves ambiguous

The search for conflicts takes ε out of what two alternatives have in
common, so a grammar can pass it although two alternatives of one
nonterminal derive the empty word, which then has two derivation trees
(`exists_isLL1_ambiguous`).

That is all the ambiguity there is. Two forests with one word, over what
is left of a sentential form, are `Twins`. Their first trees either both
have the empty word or neither has (`Twins.word_eq_nil`), since a
nonterminal that vanishes does not begin with what follows it. If
neither has, their words begin with one terminal, which decides the
production (`Twins.expand`). So the trees are the same when trimmed.
-/

namespace Predictive

variable {g : Grammar} {f n : Symbol → SymbolSet} {A B x : Symbol} {before l w : List Symbol}

namespace Grammar.Separated

variable (wf : g.WellFormed) (hf : g.FirstClosed f) (hsep : g.Separated f n)
include wf hf hsep

/-- The terminal with which alternatives begin tells them apart. -/
theorem eq_of_begins {p q : Production} (hp : p ∈ g.productions) (hq : q ∈ g.productions)
    (hlhs : p.lhs = q.lhs) (hx : x.isTerminal) (hbegins : g.Begins p.expansion x)
    (hbegins' : g.Begins q.expansion x) : p = q := by
  by_contra hne
  have hfirst := hf.mem_of_begins wf hx hbegins
  have hfirst' := hf.mem_of_begins wf hx hbegins'
  rw [wf.firstOfSequence_expansion hp] at hfirst
  rw [wf.firstOfSequence_expansion hq] at hfirst'
  exact (Symbol.isTerminal_iff.1 hx).2 (hsep.alternatives p hp q hq hlhs hne x hfirst hfirst')

theorem eq_of_derives {p q : Production} (hp : p ∈ g.productions) (hq : q ∈ g.productions)
    (hlhs : p.lhs = q.lhs) {w' v v' : List Symbol} (h : g.Derives p.expansion w)
    (h' : g.Derives q.expansion w') (hne : w ≠ []) (hne' : w' ≠ []) (hwords : w ++ v = w' ++ v')
    (hterminal : ∀ a ∈ w, a.isTerminal) : p = q := by
  obtain ⟨x, rest, rfl⟩ := List.exists_cons_of_ne_nil hne
  obtain ⟨y, rest', rfl⟩ := List.exists_cons_of_ne_nil hne'
  obtain ⟨rfl, -⟩ := List.cons.inj hwords
  exact hsep.eq_of_begins wf hf hp hq hlhs (hterminal x (List.mem_cons_self ..)) ⟨rest, h⟩
    ⟨rest', h'⟩

/-- A nonterminal that vanishes before a terminal does not begin with
it. -/
theorem not_begins_of_derives (hn : g.FollowClosed f n) (hA : A ∈ g.nonterminals)
    (hvanishes : g.Vanishes [A]) (hx : x.isTerminal) {after : List Symbol}
    (hform : g.Derives [B] (before ++ A :: x :: after)) : ¬ g.Begins [A] x := by
  intro hbegins
  have hnonterminal := wf.head_nonterminal A hA
  have hfirst := hf.mem_of_begins wf hx hbegins
  have hε := hf.epsilon_mem wf hvanishes
  rw [mem_firstOfSequence_nonterminal hnonterminal] at hfirst hε
  have hfollow := hn.mem_of_derives wf hf hnonterminal hx hform
  exact (Symbol.isTerminal_iff.1 hx).2 (hsep.vanishing A hA hε x hfirst hfollow)

end Grammar.Separated

namespace Tree

open Grammar

variable {t u : Tree} {ts us : List Tree}

/-! ## Forests with one word -/

/-- A node with a word has the right-hand side that its production
expands to below it. -/
theorem expansion_eq_of_words_ne_nil (wf : g.WellFormed) {p : Production} (mem : p ∈ g.productions)
    (hts : ts.map symbol = p.rhs) (hd : ∀ t ∈ ts, IsDerivation g t) (hne : words ts ≠ []) :
    p.expansion = p.rhs := by
  have hderives := derives_expansion wf mem hts hd
  rw [Production.expansion] at hderives ⊢
  split
  · next hp =>
    rw [if_pos hp] at hderives
    exact absurd (hderives.inert fun _ _ => List.not_mem_nil) hne
  · rfl

/-- Two forests with one word, over what is left of a sentential form of
`B`. -/
structure Twins (g : Grammar) (B : Symbol) (before l : List Symbol) (ts us : List Tree) : Prop where
  root : B ∈ g.nonterminals
  form : g.Derives [B] (before ++ l)
  left : IsForest g l (words ts) ts
  right : IsForest g l (words us) us
  words_eq : words ts = words us

namespace Twins

theorem symm (h : Twins g B before l ts us) : Twins g B before l us ts :=
  ⟨h.root, h.form, h.right, h.left, h.words_eq.symm⟩

theorem isKnown (wf : g.WellFormed) (h : Twins g B before l ts us) : ∀ s ∈ l, g.IsKnown s :=
  fun s hs => h.form.isKnown wf (List.forall_mem_singleton.2 (Or.inl h.root)) s
    (List.mem_append_right _ hs)

theorem isTerminal_of_mem (wf : g.WellFormed) (h : Twins g B before l ts us) {a : Symbol}
    (ha : a ∈ words ts) : a.isTerminal :=
  h.left.isTerminal_of_mem wf (h.isKnown wf) ha

theorem exists_cons (h : Twins g B before l (t :: ts) us) : ∃ u us', us = u :: us' := by
  refine List.exists_cons_of_ne_nil ?_
  rintro rfl
  exact absurd (h.left.roots.trans h.right.roots.symm) (List.cons_ne_nil _ _)

theorem of_cons (h : Twins g B before l (t :: ts) (u :: us)) :
    ∃ σ, l = t.symbol :: σ ∧ t.symbol = u.symbol ∧ IsDerivation g t ∧ IsDerivation g u ∧
      IsForest g σ (words ts) ts ∧ IsForest g σ (words us) us ∧
      t.word ++ words ts = u.word ++ words us := by
  obtain ⟨σ, rfl, hdt, ht, hts⟩ := h.left.of_cons
  obtain ⟨σ', hroot, hdu, hu, hus⟩ := h.right.of_cons
  obtain ⟨hsymbol, rfl⟩ := List.cons.inj hroot
  exact ⟨σ, rfl, hsymbol, hdt, hdu, hts, hus, by rw [← ht, h.words_eq, hu]⟩

theorem tail (h : Twins g B before l (t :: ts) (u :: us)) (hword : t.word = u.word) :
    ∃ before' σ, Twins g B before' σ ts us := by
  obtain ⟨σ, rfl, -, -, -, hts, hus, hwords⟩ := h.of_cons
  rw [hword] at hwords
  exact ⟨before ++ [t.symbol], σ, h.root, by simpa using h.form, hts, hus,
    List.append_cancel_left hwords⟩

section Separated

variable (wf : g.WellFormed) (hf : g.FirstClosed f) (hsep : g.Separated f n)
include wf hf hsep

theorem word_eq_nil (hn : g.FollowClosed f n) (h : Twins g B before l (t :: ts) (u :: us))
    (hnonterminal : t.symbol.isNonterminal) (ht : t.word = []) : u.word = [] := by
  obtain ⟨σ, rfl, hsymbol, hdt, hdu, hts, -, hwords⟩ := h.of_cons
  have hterminal := fun a => h.isTerminal_of_mem wf (a := a)
  rw [words_cons, hwords] at hterminal
  rw [ht, List.nil_append] at hwords
  cases hword : u.word with
  | nil => rfl
  | cons x rest =>
    exfalso
    rw [hword] at hwords hterminal
    have hε := Symbol.ne_epsilon_of_isNonterminal hnonterminal
    have hvanishes := hdt.derives_root wf
    have hbegins := hdu.derives_root wf
    rw [if_neg hε, ht] at hvanishes
    rw [← hsymbol, if_neg hε, hword] at hbegins
    -- what is behind the first symbol derives the word, so the terminal follows
    have hbehind := hts.derives wf fun s hs => h.isKnown wf s (List.mem_cons_of_mem _ hs)
    have hnext := h.form.trans ((hbehind.append_left [t.symbol]).append_left before)
    rw [hwords] at hnext
    have hA := (h.isKnown wf _ (List.mem_cons_self ..)).mem_nonterminals hnonterminal
    exact hsep.not_begins_of_derives wf hf hn hA hvanishes (hterminal x (by simp)) hnext
      ⟨rest, hbegins⟩

/-- First trees with a word were expanded by one production, and the
trees below them come before the forests behind. -/
theorem expand (h : Twins g B before l (t :: ts) (u :: us)) (hnonterminal : t.symbol.isNonterminal)
    (ht : t.word ≠ []) (hu : u.word ≠ []) :
    ∃ (A : Symbol) (below below' : List Tree) (σ : List Symbol), t = .node A false below ∧
      u = .node A false below' ∧ words below ≠ [] ∧ words below' ≠ [] ∧
      below.length = below'.length ∧ Twins g B before σ (below ++ ts) (below' ++ us) := by
  have hterminal := fun a => h.isTerminal_of_mem wf (a := a)
  obtain ⟨σ, rfl, hsymbol, hdt, hdu, hts, hus, hwords⟩ := h.of_cons
  obtain ⟨p, hp, below, rfl, hbelow, hne, hd⟩ := hdt.exists_node wf hnonterminal
  obtain ⟨q, hq, below', rfl, hbelow', hne', hd'⟩ := hdu.exists_node wf (hsymbol ▸ hnonterminal)
  rw [words_cons] at hterminal
  rw [word_node hne] at ht hwords hterminal
  rw [word_node hne'] at hu hwords
  obtain rfl := hsep.eq_of_derives wf hf hp hq hsymbol (derives_expansion wf hp hbelow hd)
    (derives_expansion wf hq hbelow' hd') ht hu hwords
    fun a ha => hterminal a (List.mem_append_left _ ha)
  have hlength := congrArg List.length (hbelow.trans hbelow'.symm)
  rw [List.length_map, List.length_map] at hlength
  have hstep := Derives.of_mem hp
  rw [expansion_eq_of_words_ne_nil wf hp hbelow hd ht] at hstep
  have hform : g.Derives [B] (before ++ [p.lhs] ++ σ) := by
    rw [List.append_assoc]
    exact h.form
  have hform' := hform.replace hstep
  rw [List.append_assoc] at hform'
  refine ⟨p.lhs, below, below', p.rhs ++ σ, rfl, rfl, ht, hu, hlength, h.root, hform', ?_, ?_, ?_⟩
  · rw [words_append]
    exact IsForest.append ⟨hbelow, hd, rfl⟩ hts
  · rw [words_append]
    exact IsForest.append ⟨hbelow', hd', rfl⟩ hus
  · rw [words_append, words_append, hwords]

/-- Two forests with one word are the same up to the empty word. -/
theorem trimmedAll_eq (hn : g.FollowClosed f n) (h : Twins g B before l ts us) :
    trimmedAll ts = trimmedAll us := by
  generalize hsize : sizeAll ts = size
  induction size using Nat.strongRecOn generalizing before l ts us with
  | ind size ih =>
    cases ts with
    | nil =>
      obtain rfl : [] = l := h.left.roots
      rw [List.map_eq_nil_iff.1 h.right.roots]
    | cons t ts =>
      obtain ⟨u, us, rfl⟩ := h.exists_cons
      obtain ⟨-, -, hsymbol, hdt, hdu, -⟩ := h.of_cons
      rw [trimmedAll_cons, trimmedAll_cons]
      rw [sizeAll_cons, size_eq] at hsize
      have hbehind : t.word = u.word → trimmedAll ts = trimmedAll us := by
        intro hword
        obtain ⟨_, _, htail⟩ := h.tail hword
        exact ih _ (by omega) htail rfl
      cases hnonterminal : t.symbol.isNonterminal with
      | false =>
        obtain rfl := hdt.eq_of_symbol_eq wf hdu hsymbol hnonterminal
        rw [hbehind rfl]
      | true =>
        by_cases hword : t.word = []
        · have hword' := h.word_eq_nil wf hf hsep hn hnonterminal hword
          rw [hdt.trimmed_eq_of_word_eq_nil wf hdu hsymbol hnonterminal hword hword',
            hbehind (hword.trans hword'.symm)]
        · have hword' : u.word ≠ [] := fun he =>
            hword (h.symm.word_eq_nil wf hf hsep hn (hsymbol ▸ hnonterminal) he)
          obtain ⟨A, below, below', σ, rfl, rfl, hne, hne', hlength, hnext⟩ :=
            h.expand wf hf hsep hnonterminal hword hword'
          have hlt : sizeAll (below ++ ts) < size := by
            rw [sizeAll_append, ← hsize]
            show sizeAll below + sizeAll ts < 1 + sizeAll below + sizeAll ts
            omega
          have hall := ih _ hlt hnext rfl
          rw [trimmedAll_append, trimmedAll_append] at hall
          have hlength' : (trimmedAll below).length = (trimmedAll below').length := by
            simpa [trimmedAll_eq_map] using hlength
          obtain ⟨hchildren, hrest⟩ := List.append_inj hall hlength'
          rw [trimmed_of_words_ne_nil hne, trimmed_of_words_ne_nil hne', hchildren, hrest]

end Separated

end Twins

end Tree

namespace Grammar

open Predictive.Tree

/-! ## The law of ambiguity -/

section Separated

variable (wf : g.WellFormed) (hf : g.FirstClosed f) (hsep : g.Separated f n)
  (hn : g.FollowClosed f n) (hA : A ∈ g.nonterminals)
include wf hf hsep hn hA

theorem Separated.trimmed_eq {t u : Tree} (ht : IsDerivation g t) (hu : IsDerivation g u)
    (hroot : t.symbol = A) (hroot' : u.symbol = A) (hword : t.word = u.word) :
    t.trimmed = u.trimmed := by
  have hleft := IsForest.singleton ht
  have hright := IsForest.singleton hu
  have htwins : Twins g A [] [A] [t] [u] := by
    refine ⟨hA, .refl _, ?_, ?_, ?_⟩
    · rw [← hroot]; simpa using hleft
    · rw [← hroot']; simpa using hright
    · simpa using hword
  have hall := htwins.trimmedAll_eq wf hf hsep hn
  rw [trimmedAll_cons, trimmedAll_cons] at hall
  exact (List.cons.inj hall).1

/-- What is ambiguous is which of two alternatives vanishes, and nothing
else. -/
theorem Separated.unambiguous_iff :
    g.Unambiguous A ↔ ∀ t, IsDerivation g t → t.symbol = A →
      ∀ v ∈ t.preorder, g.VanishesOnce v.symbol := by
  constructor
  · intro h t ht hroot v hv
    exact ((hroot ▸ h).of_mem_preorder ht hv).vanishesOnce wf
  · intro h t u ht hu hroot hroot' hword
    exact ht.eq_of_trimmed_eq wf hu (hsep.trimmed_eq wf hf hn hA ht hu hroot hroot' hword)
      (h t ht hroot)

end Separated

variable {pairs : List (Text × List Text)}

/-- Derivation trees of an LL(1) grammar with one word are the same up to
the empty word, and the grammar is unambiguous exactly when no
nonterminal of its trees has two alternatives that vanish. -/
theorem unambiguous_iff_of_isLL1 (h : load pairs = .ok g) :
    ∃ s, g.study = .ok s ∧ (s.isLL1 →
      (∀ t u, IsDerivation g t → IsDerivation g u → t.symbol = g.start → u.symbol = g.start →
        t.word = u.word → t.trimmed = u.trimmed) ∧
      (g.Unambiguous g.start ↔ ∀ t, IsDerivation g t → t.symbol = g.start →
        ∀ v ∈ t.preorder, g.VanishesOnce v.symbol)) := by
  have wf := wellFormed_of_load h
  obtain ⟨s, hs, hof⟩ := exists_study wf
  refine ⟨s, hs, fun hll1 => ?_⟩
  have hsep := (hof.isLL1_iff wf).1 hll1
  have hf := hof.firstClosed wf
  have hn := hof.followClosed wf
  exact ⟨fun t u ht hu => hsep.trimmed_eq wf hf hn wf.start_mem ht hu,
    hsep.unambiguous_iff wf hf hn wf.start_mem⟩

/-- A grammar in which one alternative of one nonterminal vanishes. -/
theorem unambiguous_iff_of_isLL1_of_one_vanishing :
    ∃ g s, load [("S", ["aA", "b"]), ("A", ["bA", "ε"])] = .ok g ∧ g.study = .ok s ∧ s.isLL1 ∧
      g.Unambiguous g.start := by
  obtain ⟨g, h⟩ : ∃ g, load [("S", ["aA", "b"]), ("A", ["bA", "ε"])] = .ok g := ⟨_, rfl⟩
  obtain ⟨s, hs, hlaw⟩ := unambiguous_iff_of_isLL1 h
  have hll1 : s.isLL1 = true := by
    apply computed_eq h hs (f := fun _ s => s.isLL1)
    decide +kernel
  have honce : decide (∀ p ∈ g.productions, ∀ q ∈ g.productions, p.lhs = q.lhs →
      .epsilon ∈ firstOfSequence (g.first ∅).sets.find p.rhs →
      .epsilon ∈ firstOfSequence (g.first ∅).sets.find q.rhs → p = q) = true := by
    apply computed_eq h hs
    decide +kernel
  have wf := wellFormed_of_load h
  refine ⟨g, s, h, hs, hll1, (hlaw hll1).2.2 fun _ _ _ _ _ p hp q hq hlhs hlhs' hv hv' => ?_⟩
  exact of_decide_eq_true honce p hp q hq (hlhs.trans hlhs'.symm)
    ((epsilon_mem_iff_vanishes wf hp).2 hv) ((epsilon_mem_iff_vanishes wf hq).2 hv')

/-- Two alternatives of the start symbol that vanish, in a grammar
without conflicts. -/
theorem exists_isLL1_ambiguous :
    ∃ g s, load [("S", ["A", "B"]), ("A", ["ε"]), ("B", ["ε"])] = .ok g ∧ g.study = .ok s ∧
      s.isLL1 ∧ ¬ g.Unambiguous g.start := by
  obtain ⟨g, h⟩ : ∃ g, load [("S", ["A", "B"]), ("A", ["ε"]), ("B", ["ε"])] = .ok g := ⟨_, rfl⟩
  have wf := wellFormed_of_load h
  obtain ⟨s, hs, -⟩ := exists_study wf
  have hfacts : (s.isLL1, g.start, g.productions) = (true, .single 'S',
      [⟨.single 'S', [.single 'A']⟩, ⟨.single 'S', [.single 'B']⟩, ⟨.single 'A', [.epsilon]⟩,
        ⟨.single 'B', [.epsilon]⟩]) := by
    apply computed_eq h hs
    decide +kernel
  simp only [Prod.mk.injEq] at hfacts
  obtain ⟨hll1, hstart, hproductions⟩ := hfacts
  refine ⟨g, s, h, hs, hll1, fun hunambiguous => ?_⟩
  have honce := hunambiguous.vanishesOnce wf ⟨.single 'S', [.single 'A']⟩ (by simp [hproductions])
    ⟨.single 'S', [.single 'B']⟩ (by simp [hproductions]) hstart.symm hstart.symm
    (Derives.of_mem (p := ⟨.single 'A', [.epsilon]⟩) (by simp [hproductions]))
    (Derives.of_mem (p := ⟨.single 'B', [.epsilon]⟩) (by simp [hproductions]))
  exact absurd honce (by decide)

end Grammar

end Predictive
