import Predictive.Proofs.Derivation
import Predictive.Tree.Derivation

/-!
# Trees and the words they yield

The word at the leaves of a tree is what `Tree.text` spells
(`text_eq_spell_word`). Every node of a derivation tree is itself the
root of one (`IsDerivation.of_mem_preorder`): an inner node was expanded
(`IsDerivation.exists_node`), and a leaf is matched and carries a
terminal of the grammar or the empty word
(`IsDerivation.leaf_mem_terminals`).

A tree `LeadsWithWord` when each node that was not replaced by the
empty word has a first child with a word of its own.
-/

namespace Predictive

namespace Tree

variable {g : Grammar} {s : Symbol} {b : Bool} {t u : Tree} {ts : List Tree}

/-! ## Words -/

theorem words_append (ts us : List Tree) : words (ts ++ us) = words ts ++ words us := by
  induction ts with
  | nil => simp
  | cons t ts ih => simp [ih]

theorem mem_words {a : Symbol} : a ∈ words ts ↔ ∃ t ∈ ts, a ∈ t.word := by
  induction ts with
  | nil => simp
  | cons t ts ih => simp [ih]

/-- The leaves with a symbol, in a list of nodes. -/
def visibleLeaves (ts : List Tree) : List Symbol :=
  ((ts.filter (·.children.isEmpty)).filter (!·.isEpsilon)).map symbol

theorem visibleLeaves_append (ts us : List Tree) :
    visibleLeaves (ts ++ us) = visibleLeaves ts ++ visibleLeaves us := by
  simp [visibleLeaves]

mutual
theorem visibleLeaves_preorder : ∀ t : Tree, visibleLeaves t.preorder = t.word
  | .node s b ts => by
    have hall := visibleLeaves_preorderAll ts
    rw [preorder_eq, ← List.singleton_append, visibleLeaves_append]
    show visibleLeaves [.node s b ts] ++ visibleLeaves (preorderAll ts) = _
    rw [hall]
    cases ts with
    | nil => by_cases hs : s = .epsilon <;> simp [visibleLeaves, word, isEpsilon, symbol, children, hs]
    | cons t ts =>
      rw [word_node (List.cons_ne_nil t ts)]
      rfl

theorem visibleLeaves_preorderAll : ∀ ts : List Tree, visibleLeaves (preorderAll ts) = words ts
  | [] => by simp [visibleLeaves]
  | t :: ts => by
    rw [preorderAll_cons, visibleLeaves_append, visibleLeaves_preorder t,
      visibleLeaves_preorderAll ts, words_cons]
end

theorem text_eq_spell_word (t : Tree) : t.text = spell t.word := by
  rw [text, leaves, walk_eq_preorder]
  exact congrArg spell (visibleLeaves_preorder t)

theorem mem_preorderAll : u ∈ preorderAll ts ↔ ∃ t ∈ ts, u ∈ t.preorder := by
  induction ts with
  | nil => simp
  | cons t ts ih => simp [ih]

theorem mem_preorder_matched : u ∈ (matched s).preorder ↔ u = .matched s := by
  simp [matched, preorder_eq, children]

/-! ## Derivation trees -/

theorem ne_nil_of_map_symbol (wf : g.WellFormed) {p : Production} (mem : p ∈ g.productions)
    (hts : ts.map symbol = p.rhs) : ts ≠ [] := by
  rintro rfl
  exact (wf.normal p mem).ne_nil hts.symm

namespace IsDerivation

theorem of_mem_preorder (h : IsDerivation g t) (hu : u ∈ t.preorder) : IsDerivation g u := by
  induction h with
  | terminal s hs =>
    obtain rfl := mem_preorder_matched.1 hu
    exact .terminal s hs
  | epsilon =>
    obtain rfl := mem_preorder_matched.1 hu
    exact .epsilon
  | node p mem ts spells below ih =>
    rw [preorder_eq] at hu
    rcases List.mem_cons.1 hu with rfl | hu
    · exact .node p mem ts spells below
    · obtain ⟨t, ht, hu⟩ := mem_preorderAll.1 hu
      exact ih t ht hu

theorem exists_node (wf : g.WellFormed) (h : IsDerivation g t) (hn : t.symbol.isNonterminal) :
    ∃ p ∈ g.productions, ∃ ts, t = .node p.lhs false ts ∧ ts.map symbol = p.rhs ∧ ts ≠ [] ∧
      ∀ u ∈ ts, IsDerivation g u := by
  cases h with
  | terminal s hs =>
    rw [show (matched s).symbol = s from rfl, (Symbol.isTerminal_iff.1 hs).1] at hn
    cases hn
  | epsilon => exact absurd hn (by decide)
  | node p mem ts spells below =>
    exact ⟨p, mem, ts, rfl, spells, ne_nil_of_map_symbol wf mem spells, below⟩

theorem eq_matched (wf : g.WellFormed) (h : IsDerivation g t)
    (hn : t.symbol.isNonterminal = false) : t = .matched t.symbol := by
  cases h with
  | terminal s hs => rfl
  | epsilon => rfl
  | node p mem ts spells below => exact absurd rfl (wf.lhs_ne_of_terminal mem hn)

/-- The nodes of a derivation tree over a symbol of the grammar carry
symbols of the grammar, or the empty word. -/
theorem isKnown_of_mem_preorder (wf : g.WellFormed) (h : IsDerivation g t)
    (hroot : g.IsKnown t.symbol) (hu : u ∈ t.preorder) :
    g.IsKnown u.symbol ∨ u.symbol = .epsilon := by
  induction h with
  | terminal s hs =>
    obtain rfl := mem_preorder_matched.1 hu
    exact Or.inl hroot
  | epsilon => exact absurd hroot wf.epsilon_not_isKnown
  | node p mem ts spells below ih =>
    rw [preorder_eq] at hu
    rcases List.mem_cons.1 hu with rfl | hu
    · exact Or.inl hroot
    · obtain ⟨t, ht, hu⟩ := mem_preorderAll.1 hu
      by_cases hε : t.symbol = .epsilon
      · -- an ε in a derivation tree is a leaf
        have hmatched := (below t ht).eq_matched wf (by rw [hε]; rfl)
        rw [hmatched] at hu
        obtain rfl := mem_preorder_matched.1 hu
        exact Or.inr hε
      · have hrhs : t.symbol ∈ p.rhs := spells ▸ List.mem_map_of_mem ht
        exact ih t ht (wf.isKnown_of_mem_rhs mem hrhs hε) hu

/-- A leaf of a derivation tree is matched, and carries a terminal or
the empty word. -/
theorem leaf (wf : g.WellFormed) (h : IsDerivation g t) (hleaf : t.children = []) :
    t.isTerminal ∧ t.symbol.isNonterminal = false := by
  cases h with
  | terminal s hs => exact ⟨rfl, (Symbol.isTerminal_iff.1 hs).1⟩
  | epsilon => exact ⟨rfl, rfl⟩
  | node p mem ts spells below =>
    exact absurd hleaf (ne_nil_of_map_symbol wf mem spells)

theorem leaf_mem_terminals (wf : g.WellFormed) (h : IsDerivation g t)
    (hroot : g.IsKnown t.symbol) (hu : u ∈ t.preorder) (hleaf : u.children = []) :
    u.symbol ∈ g.terminals ∨ u.symbol = .epsilon := by
  refine (h.isKnown_of_mem_preorder wf hroot hu).imp_left fun hknown => ?_
  refine hknown.resolve_left fun hA => ?_
  have hn := wf.head_nonterminal _ hA
  rw [((h.of_mem_preorder hu).leaf wf hleaf).2] at hn
  cases hn

theorem mem_terminals (wf : g.WellFormed) (h : IsDerivation g t) (hroot : g.IsKnown t.symbol)
    {a : Symbol} (ha : a ∈ t.word) : a ∈ g.terminals := by
  rw [← visibleLeaves_preorder t] at ha
  obtain ⟨u, hu, rfl⟩ := List.mem_map.1 ha
  obtain ⟨hu, hε⟩ := List.mem_filter.1 hu
  obtain ⟨hu, hempty⟩ := List.mem_filter.1 hu
  have hleaf := h.leaf_mem_terminals wf hroot hu (List.isEmpty_iff.1 hempty)
  exact hleaf.resolve_right (by simpa [isEpsilon] using hε)

end IsDerivation

/-! ## Trees that lead with a word -/

/-- Each node that was not replaced by the empty word has a first child
with a word. -/
def LeadsWithWord (t : Tree) : Prop :=
  ∀ u ∈ t.preorder, u.children.map symbol ≠ [.epsilon] → ∀ v ∈ u.children.head?, v.word ≠ []

theorem leadsWithWord_node :
    LeadsWithWord (.node s b ts) ↔
      (ts.map symbol ≠ [.epsilon] → ∀ v ∈ ts.head?, v.word ≠ []) ∧ ∀ t ∈ ts, LeadsWithWord t := by
  rw [LeadsWithWord, preorder_eq]
  constructor
  · intro h
    refine ⟨h _ (List.mem_cons_self ..), fun t ht u hu => ?_⟩
    exact h u (List.mem_cons_of_mem _ (mem_preorderAll.2 ⟨t, ht, hu⟩))
  · rintro ⟨hroot, hbelow⟩ u hu
    rcases List.mem_cons.1 hu with rfl | hu
    · exact hroot
    · obtain ⟨t, ht, hu⟩ := mem_preorderAll.1 hu
      exact hbelow t ht u hu

theorem LeadsWithWord.word_ne_nil (h : LeadsWithWord t) (hne : t.children ≠ [])
    (hε : t.children.map symbol ≠ [.epsilon]) : t.word ≠ [] := by
  obtain ⟨s, b, ts⟩ := t
  cases ts with
  | nil => exact absurd rfl hne
  | cons u us =>
    have hfirst := (leadsWithWord_node.1 h).1 hε u rfl
    rw [word_node (List.cons_ne_nil u us), words_cons]
    exact List.append_ne_nil_of_left_ne_nil hfirst _

theorem leadsWithWord_matched (s : Symbol) : LeadsWithWord (.matched s) := by
  refine leadsWithWord_node.2 ⟨fun _ v hv => ?_, fun t ht => ?_⟩
  · cases hv
  · cases ht

/-- Where no right-hand side begins with a nonterminal that can vanish,
every derivation tree leads with a word. -/
theorem IsDerivation.leadsWithWord (wf : g.WellFormed) (hg : g.HeadsStay)
    (h : IsDerivation g t) : t.LeadsWithWord := by
  induction h with
  | terminal s hs => exact leadsWithWord_matched s
  | epsilon => exact leadsWithWord_matched .epsilon
  | node p mem ts spells below ih =>
    refine leadsWithWord_node.2 ⟨fun hne v hv hword => ?_, ih⟩
    have hmem : v ∈ ts := List.mem_of_mem_head? hv
    have hd := (below v hmem).derives_root wf
    have hhead : v.symbol ∈ p.rhs.head? := by
      rw [← spells, List.head?_map, hv]
      rfl
    have hε : v.symbol ≠ .epsilon := by
      intro he
      have hin : Symbol.epsilon ∈ p.rhs := he ▸ List.mem_of_mem_head? hhead
      exact hne (spells.trans ((wf.normal p mem).epsilon_alone hin))
    rw [if_neg hε, hword] at hd
    by_cases hn : v.symbol.isNonterminal
    · exact hg p mem v.symbol hhead hn hd
    · have hinert := hd.inert fun q hq hlhs =>
        wf.lhs_ne_of_terminal hq (by simpa using hn) (List.mem_singleton.1 hlhs)
      cases hinert

end Tree

end Predictive
