import Predictive.Proofs.Machine.Regrowth

/-!
# What the machine of an LL(1) grammar accepts

A cell is filled from the first symbol of a right-hand side alone, so
where that symbol vanishes the production is not predicted. In a
separated grammar this is all that is lost: the machine accepts a text
exactly when the text has a derivation tree that leads with a word
(`Study.IsOf.exists_accept_iff`).

- That the tree of an accepted text leads with a word is proved from the
  last step back (`exists_isLeading`): a production is predicted on what
  its first symbol begins with, and where that symbol can vanish, what
  it begins with does not follow it (`word_ne_nil_of_predicted`).
- That such a tree leads the machine to accept is proved step by step
  (`LeadsOn.exists_step`), by induction on the trees over the stack. The
  next symbol calls for the production at the root: it begins the word of
  the first child, or, below a production for the empty word, it follows
  the nonterminal in the sentential form that the stack is the end of.
-/

namespace Predictive

open Config Predictive.Tree

variable {g : Grammar} {s : Study} {c c' : Config} {σ w : List Symbol} {k : Nat}

/-! ## Accepted texts -/

/-- The tree on top was expanded by the production in the cell of its
root and the next symbol. -/
def Predicted (t : ParsingTable) (a : Symbol) (ts : List Tree) : Prop :=
  ∀ u ∈ ts.head?, u.symbol.isNonterminal →
    ∃ p, t.get? u.symbol a = some p ∧ u.children.map symbol = p.rhs

theorem word_ne_nil_of_predicted (wf : g.WellFormed) (hs : s.IsOf g)
    (hsep : g.Separated s.first.sets.find s.follow.sets.find) {p : Production} {a : Symbol}
    (hp : s.table.get? p.lhs a = some p) (hε : p.isEpsilon = false) {u : Tree} {ts : List Tree}
    (hu : IsDerivation g u) (hleads : LeadsWithWord u) (hrhs : (u :: ts).map symbol = p.rhs)
    (hpred : Predicted s.table a (u :: ts)) : u.word ≠ [] := by
  obtain ⟨mem, -, ha⟩ := hs.mem_of_get? wf hp
  obtain ⟨hbegins, haε⟩ := (wf.mem_columns mem hε hrhs.symm).1 ha
  by_cases hn : u.symbol.isNonterminal
  · obtain ⟨q, hq, hchildren⟩ := hpred u rfl hn
    obtain ⟨memq, hlhs, haq⟩ := hs.mem_of_get? wf hq
    rw [mem_firstOfSequence_nonterminal hn, ← hlhs] at hbegins
    refine hleads.word_ne_nil (fun hnil => ?_) fun hempty => ?_
    · rw [hnil] at hchildren
      exact (wf.normal q memq).ne_nil hchildren.symm
    · -- the first tree would vanish before a symbol that it can begin with
      have hqε := Production.isEpsilon_iff.2 (hchildren.symm.trans hempty)
      exact haε (hsep.eq_epsilon (hs.firstClosed wf) memq hqε haq hbegins)
  · have hne : u.symbol ≠ .epsilon :=
      wf.ne_epsilon_of_mem_rhs mem hε (hrhs ▸ List.mem_cons_self ..)
    rw [hu.eq_matched wf (by simpa using hn), word_matched, if_neg hne]
    exact List.cons_ne_nil _ _

/-- Trees over the stack that lead with a word, the first of them as it
was predicted. -/
structure IsLeading (g : Grammar) (t : ParsingTable) (σ w : List Symbol) (ts : List Tree) :
    Prop where
  forest : IsForest g σ w ts
  leads : ∀ u ∈ ts, LeadsWithWord u
  predicted : Predicted t (w.headD .endMarker) ts

namespace IsLeading

variable {ts : List Tree}

theorem nil {t : ParsingTable} : IsLeading g t [] [] [] where
  forest := .nil
  leads := List.forall_mem_nil _
  predicted u hu := by cases hu

theorem consume {t : ParsingTable} {x : Symbol} (hx : x.isTerminal) (h : IsLeading g t σ w ts) :
    IsLeading g t (x :: σ) (x :: w) (.matched x :: ts) where
  forest := (IsForest.matched hx).append h.forest
  leads := List.forall_mem_cons.2 ⟨leadsWithWord_matched x, h.leads⟩
  predicted u hu hn := by
    obtain rfl := Option.some.inj hu
    rw [show (matched x).symbol = x from rfl, (Symbol.isTerminal_iff.1 hx).1] at hn
    cases hn

theorem expand (wf : g.WellFormed) (hs : s.IsOf g)
    (hsep : g.Separated s.first.sets.find s.follow.sets.find) {p : Production}
    (hp : s.table.get? p.lhs (w.headD .endMarker) = some p)
    (h : IsLeading g s.table (p.expansion ++ σ) w ts) :
    ∃ us, IsLeading g s.table (p.lhs :: σ) w us := by
  obtain ⟨mem, -, -⟩ := hs.mem_of_get? wf hp
  obtain ⟨body, rest, rfl, rfl, hbody, hrest⟩ := h.forest.split
  obtain ⟨hleadsBody, hleadsRest⟩ := List.forall_mem_append.1 h.leads
  have hrhs := map_symbol_childrenOver hbody.roots
  refine ⟨_, (hbody.node wf mem).append hrest, List.forall_mem_cons.2 ⟨?_, hleadsRest⟩, ?_⟩
  · refine leadsWithWord_node.2 ⟨fun hne v hv => ?_, fun u hu => ?_⟩
    · have hε : p.isEpsilon = false := by
        rw [hrhs] at hne
        simpa [Production.isEpsilon] using hne
      rw [Production.childrenOver, hε, if_neg Bool.false_ne_true] at hv hrhs
      obtain ⟨us, rfl⟩ := List.head?_eq_some_iff.1 hv
      exact word_ne_nil_of_predicted wf hs hsep hp hε (hbody.derivations v (by simp))
        (hleadsBody v (by simp)) hrhs h.predicted
    · rcases mem_childrenOver hu with rfl | hu
      · exact leadsWithWord_matched .epsilon
      · exact hleadsBody u hu
  · intro u hu _
    obtain rfl := Option.some.inj hu
    exact ⟨p, hp, hrhs⟩

end IsLeading

/-- Before the machine came to accept, trees that lead with a word stood
over its stack. -/
theorem exists_isLeading (wf : g.WellFormed) (hs : s.IsOf g)
    (hsep : g.Separated s.first.sets.find s.follow.sets.find) (h : Reaches s.table k c c')
    (haccept : c'.act s.table = .accept) (hc : StandsOn g σ c) :
    ∃ ts, IsLeading g s.table σ c.unread ts := by
  induction h generalizing σ with
  | refl c =>
    obtain ⟨rfl, hunread⟩ := hc.eq_nil_of_accept wf haccept
    rw [hunread]
    exact ⟨[], .nil⟩
  | step hnext _ ih =>
    rcases hc.next wf (hs.table_isOf wf) hnext with
      ⟨x, σ₁, hx, rfl, hunread, -, hc₁⟩ | ⟨p, mem, σ₁, rfl, hp, hunread, -, hc₁⟩
    · obtain ⟨ts, hts⟩ := ih haccept hc₁
      rw [hunread]
      exact ⟨_, hts.consume hx⟩
    · obtain ⟨ts, hts⟩ := ih haccept hc₁
      rw [hunread] at hts
      exact hts.expand wf hs hsep hp

/-! ## Leading trees -/

/-- What follows a nonterminal in a sentential form calls for its
production for the empty word. -/
theorem mem_columns_of_behind (wf : g.WellFormed) (hs : s.IsOf g) {p : Production}
    (mem : p ∈ g.productions) (hε : p.isEpsilon) {before : List Symbol}
    (hform : g.Derives [g.start] (before ++ p.lhs :: w)) (hw : ∀ x ∈ w, x.isTerminal) :
    w.headD .endMarker ∈ p.columns s.first.sets.find s.follow.sets.find := by
  have hn := wf.lhs_isNonterminal mem
  have hfirst := hs.firstClosed wf
  have hfollow := hs.followClosed wf
  rw [Grammar.WellFormed.mem_columns_epsilon hε]
  cases w with
  | nil => exact hfollow.subset_of_derives wf hfirst hn hform _ (hs.endMarker_mem_follow wf)
  | cons x w => exact hfollow.mem_of_derives wf hfirst hn (hw x (List.mem_cons_self ..)) hform

/-- The word of the first child calls for the production of a node. -/
theorem mem_columns_of_first (wf : g.WellFormed) (hs : s.IsOf g) {p : Production}
    (mem : p ∈ g.productions) (hε : p.isEpsilon = false) {u : Tree} {us : List Tree}
    (hrhs : (u :: us).map symbol = p.rhs) (hu : IsDerivation g u) (hword : u.word ≠ []) :
    (words (u :: us) ++ w).headD .endMarker ∈
      p.columns s.first.sets.find s.follow.sets.find := by
  have hmem : u.symbol ∈ p.rhs := hrhs ▸ List.mem_cons_self ..
  have hne := wf.ne_epsilon_of_mem_rhs mem hε hmem
  have hroot := hu.derives_root wf
  obtain ⟨x, xs, hx⟩ := List.exists_cons_of_ne_nil hword
  rw [if_neg hne, hx] at hroot
  have hknown : x ∈ g.terminals :=
    hu.mem_terminals wf (wf.isKnown_of_mem_rhs mem hmem hne) (by rw [hx]; simp)
  have hterminal := Grammar.isTerminal_of_mem hknown
  rw [words_cons, hx]
  exact (wf.mem_columns mem hε hrhs.symm).2
    ⟨(hs.firstClosed wf).mem_of_begins wf hterminal ⟨xs, hroot⟩,
      (Symbol.isTerminal_iff.1 hterminal).2⟩

/-- Trees that lead with a word stand over the stack, which is the end
of a sentential form. -/
structure LeadsOn (g : Grammar) (before σ : List Symbol) (ts : List Tree) (c : Config) :
    Prop where
  stack : StandsOn g σ c
  form : g.Derives [g.start] (before ++ σ)
  forest : IsForest g σ c.unread ts
  leads : ∀ t ∈ ts, LeadsWithWord t

namespace LeadsOn

variable {before : List Symbol} {t : Tree} {ts : List Tree}

/-- The production at the root of the first tree stands in the cell of
the next symbol. -/
theorem get?_root (wf : g.WellFormed) (hs : s.IsOf g)
    (hsep : g.Separated s.first.sets.find s.follow.sets.find) {p : Production}
    (mem : p ∈ g.productions) {below : List Tree} (hbelow : below.map symbol = p.rhs)
    (hd : ∀ u ∈ below, IsDerivation g u)
    (h : LeadsOn g before (p.lhs :: σ) (.node p.lhs false below :: ts) c)
    (hunread : c.unread = words below ++ words ts) :
    s.table.get? p.lhs c.lookahead = some p := by
  refine hs.get?_of_mem_columns wf hsep mem ?_
  rw [lookahead, hunread]
  cases hε : p.isEpsilon with
  | true =>
    obtain ⟨_, hσ, -, -, hts⟩ := h.forest.of_cons
    obtain ⟨-, rfl⟩ := List.cons.inj hσ
    have hknown := (List.forall_mem_cons.1 h.stack.known).2
    have hrest := (hts.derives wf hknown).append_left [p.lhs]
    obtain ⟨body, hbody, -, -⟩ := exists_body wf hbelow hd
    rw [Production.expansion, if_pos hε] at hbody
    obtain rfl := List.map_eq_nil_iff.1 hbody.roots
    rw [← hbody.words_eq, words_nil, List.nil_append]
    exact mem_columns_of_behind wf hs mem hε (h.form.trans (hrest.append_left before))
      fun x => hts.isTerminal_of_mem wf hknown
  | false =>
    cases below with
    | nil => exact absurd hbelow.symm (wf.normal p mem).ne_nil
    | cons u us =>
      have hne : (u :: us).map symbol ≠ [.epsilon] := by
        intro he
        rw [Production.isEpsilon_iff.2 (hbelow.symm.trans he)] at hε
        cases hε
      have hleads := h.leads _ (List.mem_cons_self ..)
      exact mem_columns_of_first wf hs mem hε hbelow (hd u (List.mem_cons_self ..))
        ((leadsWithWord_node.1 hleads).1 hne u rfl)

/-- Where a tree is left, the machine makes a step that leaves less. -/
theorem exists_step (wf : g.WellFormed) (hs : s.IsOf g)
    (hsep : g.Separated s.first.sets.find s.follow.sets.find)
    (h : LeadsOn g before σ (t :: ts) c) :
    ∃ c' before' σ' us, c.next? s.table = some c' ∧ LeadsOn g before' σ' us c' ∧
      sizeAll us < sizeAll (t :: ts) := by
  obtain ⟨hc, hform, hforest, hleads⟩ := h
  obtain ⟨σ, rfl, ht, hunread, hts⟩ := hforest.of_cons
  obtain ⟨hleadsTop, hleadsRest⟩ := List.forall_mem_cons.1 hleads
  cases hn : t.symbol.isNonterminal with
  | false =>
    have hε : t.symbol ≠ .epsilon := by
      intro he
      exact wf.epsilon_not_isKnown (he ▸ hc.known _ (List.mem_cons_self ..))
    rw [ht.eq_matched wf hn, word_matched, if_neg hε] at hunread
    obtain ⟨c', hnext, hc', hunread'⟩ :=
      hc.exists_consume wf (Symbol.isTerminal_iff.2 ⟨hn, hε⟩) hunread
    refine ⟨c', before ++ [t.symbol], σ, ts, hnext,
      ⟨hc', by simpa using hform, by rw [hunread']; exact hts, hleadsRest⟩, ?_⟩
    rw [sizeAll_cons, size_eq]
    omega
  | true =>
    obtain ⟨p, mem, below, rfl, hbelow, hne, hd⟩ := ht.exists_node wf hn
    rw [word_node hne] at hunread
    have hcell := get?_root wf hs hsep mem hbelow hd ⟨hc, hform, hforest, hleads⟩ hunread
    obtain ⟨c', hnext, hc', hunread'⟩ := hc.exists_expand wf mem hcell
    -- the trees of the right-hand side come to the top, unless it is the empty word
    obtain ⟨body, hbody, hmem, hle⟩ := exists_body wf hbelow hd
    have hform' : g.Derives [g.start] (before ++ [p.lhs] ++ σ) := by
      rw [List.append_assoc]
      exact hform
    refine ⟨c', before, p.expansion ++ σ, body ++ ts, hnext, ⟨hc', ?_, ?_, ?_⟩, ?_⟩
    · rw [← List.append_assoc]
      exact hform'.replace (.of_mem mem)
    · rw [hunread', hunread]
      exact hbody.append hts
    · refine List.forall_mem_append.2 ⟨fun u hu => ?_, hleadsRest⟩
      exact (leadsWithWord_node.1 hleadsTop).2 u (hmem u hu)
    · rw [sizeAll_append, sizeAll_cons, size_eq]
      show sizeAll body + sizeAll ts < 1 + sizeAll below + sizeAll ts
      omega

/-- Trees that lead with a word bring the machine to accept. -/
theorem exists_accept (wf : g.WellFormed) (hs : s.IsOf g)
    (hsep : g.Separated s.first.sets.find s.follow.sets.find) (h : LeadsOn g before σ ts c) :
    ∃ k c', Reaches s.table k c c' ∧ c'.act s.table = .accept := by
  generalize hsize : sizeAll ts = size
  induction size using Nat.strongRecOn generalizing before σ ts c with
  | ind size ih =>
    cases ts with
    | nil =>
      obtain rfl : σ = [] := h.forest.roots.symm
      exact ⟨0, c, .refl c, h.stack.accept_of_nil h.forest.words_eq.symm⟩
    | cons t ts =>
      obtain ⟨c₁, before', σ', us, hnext, h₁, hlt⟩ := h.exists_step wf hs hsep
      obtain ⟨k, c', hreach, haccept⟩ := ih _ (hsize ▸ hlt) h₁ rfl
      exact ⟨k + 1, c', .step hnext hreach, haccept⟩

end LeadsOn

/-! ## Both directions -/

namespace Study.IsOf

/-- The machine of an LL(1) grammar comes to accept the words of the
derivation trees that lead with a word. -/
theorem exists_accept_iff (wf : g.WellFormed) (hs : s.IsOf g) (hll1 : s.isLL1)
    (input : List Symbol) :
    (∃ k c, Reaches s.table k (initial g.start input) c ∧ c.act s.table = .accept) ↔
      ∃ tree, IsDerivation g tree ∧ tree.symbol = g.start ∧ tree.word = input ∧
        tree.LeadsWithWord := by
  have hsep := (hs.isLL1_iff wf).1 hll1
  have hinitial := StandsOn.initial wf input
  constructor
  · rintro ⟨k, c, hreach, haccept⟩
    obtain ⟨ts, hforest, hleads, -⟩ := exists_isLeading wf hs hsep hreach haccept hinitial
    obtain ⟨tree, rfl, hd, hroot, hword⟩ := hforest.eq_singleton
    exact ⟨tree, hd, hroot, hword, hleads tree (List.mem_cons_self ..)⟩
  · rintro ⟨tree, hd, hroot, hword, hleads⟩
    have hforest := IsForest.singleton hd
    rw [hroot, hword] at hforest
    have hleadsOn : LeadsOn g [] [g.start] [tree] (initial g.start _) :=
      ⟨hinitial, .refl _, hforest, List.forall_mem_singleton.2 hleads⟩
    exact hleadsOn.exists_accept wf hs hsep

theorem isAccepted_iff (wf : g.WellFormed) (hs : s.IsOf g) (hll1 : s.isLL1) (text : Text) :
    (s.parse text).isAccepted ↔ ∃ tree, IsDerivation g tree ∧ tree.symbol = g.start ∧
      tree.word = symbolsOf (Text.unblank text) ∧ tree.LeadsWithWord := by
  rw [Study.parse, hs.grammar, ParsingTable.isAccepted_parse_iff, hs.exists_accept_iff wf hll1]

/-- Where no right-hand side begins with a nonterminal that can vanish,
the machine comes to accept every sentence. -/
theorem exists_accept_of_isSentence (wf : g.WellFormed) (hs : s.IsOf g) (hll1 : s.isLL1)
    (hheads : g.HeadsStay) {input : List Symbol} (h : g.IsSentence input) :
    ∃ k c, Reaches s.table k (initial g.start input) c ∧ c.act s.table = .accept := by
  obtain ⟨tree, hd, hroot, hword⟩ := (isSentence_iff_tree wf).1 h
  exact (hs.exists_accept_iff wf hll1 input).2
    ⟨tree, hd, hroot, hword, hd.leadsWithWord wf hheads⟩

end Study.IsOf

namespace Grammar

variable {pairs : List (Text × List Text)}

/-- The parser of an LL(1) grammar accepts exactly the texts that have a
derivation tree that leads with a word, and exactly the sentences where
no right-hand side begins with a nonterminal that can vanish. -/
theorem isAccepted_iff_leading_tree (h : load pairs = .ok g) :
    ∃ s, g.study = .ok s ∧ (s.isLL1 →
      (∀ text, (s.parse text).isAccepted ↔ ∃ tree, IsDerivation g tree ∧ tree.symbol = g.start ∧
        tree.word = symbolsOf (Text.unblank text) ∧
        ∀ u ∈ tree.preorder, u.children.map symbol ≠ [.epsilon] →
          ∀ v ∈ u.children.head?, v.word ≠ []) ∧
      ((∀ p ∈ g.productions, ∀ X ∈ p.rhs.head?, X.isNonterminal → ¬ g.Derives [X] []) →
        ∀ text, (s.parse text).isAccepted ↔ g.IsSentence (symbolsOf (Text.unblank text)))) := by
  have wf := wellFormed_of_load h
  obtain ⟨s, hs, hof⟩ := exists_study wf
  refine ⟨s, hs, fun hll1 => ⟨hof.isAccepted_iff wf hll1, fun hheads text => ?_⟩⟩
  rw [hof.isAccepted_iff wf hll1, isSentence_iff_tree wf]
  constructor
  · rintro ⟨tree, hd, hroot, hword, -⟩
    exact ⟨tree, hd, hroot, hword⟩
  · rintro ⟨tree, hd, hroot, hword⟩
    exact ⟨tree, hd, hroot, hword, hd.leadsWithWord wf hheads⟩

/-- A sentence that is lost below a first symbol that vanishes, and a
grammar in which none is. -/
theorem isAccepted_iff_leading_tree_of_vanishing_head :
    (∃ g s, load [("S", ["Ab"]), ("A", ["ε", "a"])] = .ok g ∧ g.study = .ok s ∧ s.isLL1 ∧
      g.IsSentence (symbolsOf "b") ∧
      (¬ ∃ tree, IsDerivation g tree ∧ tree.symbol = g.start ∧ tree.word = symbolsOf "b" ∧
        ∀ u ∈ tree.preorder, u.children.map symbol ≠ [.epsilon] →
          ∀ v ∈ u.children.head?, v.word ≠ []) ∧
      ∃ tree, IsDerivation g tree ∧ tree.symbol = g.start ∧ tree.word = symbolsOf "ab" ∧
        ∀ u ∈ tree.preorder, u.children.map symbol ≠ [.epsilon] →
          ∀ v ∈ u.children.head?, v.word ≠ []) ∧
    ∃ g s, load [("E", ["TR"]), ("R", ["+TR", "ε"]), ("T", ["i", "(E)"])] = .ok g ∧
      g.study = .ok s ∧ s.isLL1 ∧ g.IsSentence (symbolsOf "(i+i)+i") ∧
      ¬ g.IsSentence (symbolsOf "(i+i") := by
  constructor
  · obtain ⟨g, h⟩ : ∃ g, load [("S", ["Ab"]), ("A", ["ε", "a"])] = .ok g := ⟨_, rfl⟩
    obtain ⟨s, hs, hlaw⟩ := isAccepted_iff_leading_tree h
    have hgrammar : (g.start, g.productions) = (.single 'S',
        [⟨.single 'S', [.single 'A', .single 'b']⟩, ⟨.single 'A', [.epsilon]⟩,
          ⟨.single 'A', [.single 'a']⟩]) := by
      apply computed_eq h hs
      decide +kernel
    have hruns : (s.isLL1, (s.parse "a b").isAccepted, (s.parse "b").isAccepted) =
        (true, true, false) := by
      apply computed_eq h hs
      decide +kernel
    obtain ⟨hstart, hproductions⟩ := Prod.mk.inj hgrammar
    simp only [Prod.mk.injEq] at hruns
    obtain ⟨hll1, hab, hb⟩ := hruns
    have hS : (⟨.single 'S', [.single 'A', .single 'b']⟩ : Production) ∈ g.productions := by
      simp [hproductions]
    have hA : (⟨.single 'A', [.epsilon]⟩ : Production) ∈ g.productions := by
      simp [hproductions]
    have hd : g.Derives [.single 'S'] [.single 'b'] :=
      (Derives.of_mem hS).trans ((Derives.of_mem hA).append_right [.single 'b'])
    obtain ⟨hleading, -⟩ := hlaw hll1
    refine ⟨g, s, h, hs, hll1, ⟨by decide, hstart ▸ hd⟩, fun htree => ?_, (hleading "a b").1 hab⟩
    rw [(hleading "b").2 htree] at hb
    cases hb
  · obtain ⟨g, h⟩ : ∃ g, load [("E", ["TR"]), ("R", ["+TR", "ε"]), ("T", ["i", "(E)"])] = .ok g :=
      ⟨_, rfl⟩
    obtain ⟨s, hs, hlaw⟩ := isAccepted_iff_leading_tree h
    have hruns : (s.isLL1, (s.parse "(i+i)+i").isAccepted, (s.parse "(i+i").isAccepted) =
        (true, true, false) := by
      apply computed_eq h hs
      decide +kernel
    have hheads : decide (∀ p ∈ g.productions, ∀ X ∈ p.rhs.head?, X.isNonterminal →
        .epsilon ∉ firstOfSequence (g.first ∅).sets.find [X]) = true := by
      apply computed_eq h hs
      decide +kernel
    simp only [Prod.mk.injEq] at hruns
    obtain ⟨hll1, hin, hout⟩ := hruns
    have wf := wellFormed_of_load h
    obtain ⟨-, hlanguage⟩ := hlaw hll1
    have hsentences := hlanguage fun p mem X hX hn hd =>
      of_decide_eq_true hheads p mem X hX hn ((firstClosed_first wf ∅).epsilon_mem wf hd)
    refine ⟨g, s, h, hs, hll1, (hsentences "(i+i)+i").1 hin, fun hsentence => ?_⟩
    rw [(hsentences "(i+i").2 hsentence] at hout
    cases hout

end Grammar

end Predictive
