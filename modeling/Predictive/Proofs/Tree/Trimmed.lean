import Predictive.Proofs.Tree.Forest

/-!
# Trees up to the empty word

A nonterminal can derive the empty word in many ways, and a tree says
in which. `Tree.trimmed` forgets this: it leaves one ε leaf below each
node that has the empty word, and changes neither the root nor the word
of a tree (`word_trimmed`).

Nothing is forgotten where each nonterminal of the tree has at most one
alternative that can vanish (`IsDerivation.eq_of_trimmed_eq`). Where one
has two of them, some word has two derivation trees
(`Unambiguous.vanishesOnce`), and so has one derived from each
nonterminal above it (`Unambiguous.of_mem_preorder`).
-/

namespace Predictive

namespace Grammar

/-- At most one alternative of the nonterminal can vanish. -/
def VanishesOnce (g : Grammar) (A : Symbol) : Prop :=
  ∀ p ∈ g.productions, ∀ q ∈ g.productions, p.lhs = A → q.lhs = A →
    g.Derives p.expansion [] → g.Derives q.expansion [] → p = q

/-- No word has two derivation trees from the symbol. -/
def Unambiguous (g : Grammar) (A : Symbol) : Prop :=
  ∀ t u, Tree.IsDerivation g t → Tree.IsDerivation g u → t.symbol = A → u.symbol = A →
    t.word = u.word → t = u

end Grammar

namespace Tree

variable {g : Grammar} {s : Symbol} {b : Bool} {t u v : Tree} {ts us : List Tree} {p : Production}

/-! ## Trimming -/

mutual
/-- The tree with one ε leaf below each node that has the empty word. -/
def trimmed : Tree → Tree
  | .node s b [] => .node s b []
  | .node s b (t :: ts) =>
    .node s b (if words (t :: ts) = [] then [.matched .epsilon] else trimmed t :: trimmedAll ts)

/-- Each of the trees, trimmed. -/
def trimmedAll : List Tree → List Tree
  | [] => []
  | t :: ts => trimmed t :: trimmedAll ts
end

@[simp] theorem trimmedAll_nil : trimmedAll [] = [] := by rw [trimmedAll]

@[simp] theorem trimmedAll_cons (t : Tree) (ts : List Tree) :
    trimmedAll (t :: ts) = t.trimmed :: trimmedAll ts := by rw [trimmedAll]

theorem trimmedAll_eq_map (ts : List Tree) : trimmedAll ts = ts.map trimmed := by
  induction ts with
  | nil => simp
  | cons t ts ih => simp [ih]

theorem trimmedAll_append (ts us : List Tree) :
    trimmedAll (ts ++ us) = trimmedAll ts ++ trimmedAll us := by
  simp [trimmedAll_eq_map]

@[simp] theorem symbol_trimmed (t : Tree) : t.trimmed.symbol = t.symbol := by
  obtain ⟨s, b, ts⟩ := t
  cases ts with
  | nil => rw [trimmed]
  | cons t ts => rw [trimmed]; rfl

theorem trimmed_of_words_nil (hne : ts ≠ []) (h : words ts = []) :
    (node s b ts).trimmed = node s b [.matched .epsilon] := by
  cases ts with
  | nil => exact absurd rfl hne
  | cons t ts => rw [trimmed, if_pos h]

theorem trimmed_of_words_ne_nil (h : words ts ≠ []) :
    (node s b ts).trimmed = node s b (trimmedAll ts) := by
  cases ts with
  | nil => exact absurd words_nil h
  | cons t ts => rw [trimmed, if_neg h, trimmedAll_cons]

mutual
theorem word_trimmed : ∀ t : Tree, t.trimmed.word = t.word
  | .node s b [] => by rw [trimmed]
  | .node s b (t :: ts) => by
    rw [word_node (List.cons_ne_nil t ts)]
    by_cases h : words (t :: ts) = []
    · rw [trimmed_of_words_nil (List.cons_ne_nil t ts) h, h, word_node (List.cons_ne_nil _ _)]
      simp
    · rw [trimmed_of_words_ne_nil h, trimmedAll_cons, word_node (List.cons_ne_nil _ _),
        words_cons, words_cons, word_trimmed t, words_trimmedAll ts]

theorem words_trimmedAll : ∀ ts : List Tree, words (trimmedAll ts) = words ts
  | [] => by rw [trimmedAll]
  | t :: ts => by
    rw [trimmedAll_cons, words_cons, words_cons, word_trimmed t, words_trimmedAll ts]
end

/-! ## What trimming forgets -/

/-- Lists of trees with the same image are equal when the image tells
their trees apart. -/
theorem eq_of_map_eq {β : Type} {f : Tree → β} (h : ts.map f = us.map f)
    (hf : ∀ t ∈ ts, ∀ u ∈ us, f t = f u → t = u) : ts = us := by
  induction ts generalizing us with
  | nil => exact (List.map_eq_nil_iff.1 h.symm).symm
  | cons t ts ih =>
    cases us with
    | nil => simp at h
    | cons u us =>
      obtain ⟨hhead, htail⟩ := List.cons.inj h
      have hrest := ih htail fun t ht u hu =>
        hf t (List.mem_cons_of_mem _ ht) u (List.mem_cons_of_mem _ hu)
      rw [hf t (List.mem_cons_self ..) u (List.mem_cons_self ..) hhead, hrest]

theorem words_eq_nil : words ts = [] ↔ ∀ t ∈ ts, t.word = [] := by
  induction ts with
  | nil => simp
  | cons t ts ih => simp [ih]

theorem mem_preorder_self (t : Tree) : t ∈ t.preorder := by
  rw [preorder_eq]
  exact List.mem_cons_self ..

theorem mem_preorder_of_mem (hv : v ∈ ts) (hu : u ∈ v.preorder) : u ∈ (node s b ts).preorder := by
  rw [preorder_eq]
  exact List.mem_cons_of_mem _ (mem_preorderAll.2 ⟨v, hv, hu⟩)

theorem derives_expansion (wf : g.WellFormed) (mem : p ∈ g.productions)
    (hts : ts.map symbol = p.rhs) (hd : ∀ t ∈ ts, IsDerivation g t) :
    g.Derives p.expansion (words ts) := by
  obtain ⟨body, hbody, -⟩ := exists_body wf hts hd
  refine hbody.derives wf fun s hs => ?_
  obtain ⟨hrhs, hε⟩ := (wf.mem_expansion mem).1 hs
  exact wf.isKnown_of_mem_rhs mem hrhs hε

namespace IsDerivation

theorem eq_of_symbol_eq (wf : g.WellFormed) (ht : IsDerivation g t) (hu : IsDerivation g u)
    (hroot : t.symbol = u.symbol) (hn : t.symbol.isNonterminal = false) : t = u := by
  rw [ht.eq_matched wf hn, hu.eq_matched wf (hroot ▸ hn), hroot]

theorem trimmed_eq_of_word_eq_nil (wf : g.WellFormed) (ht : IsDerivation g t)
    (hu : IsDerivation g u) (hroot : t.symbol = u.symbol) (hn : t.symbol.isNonterminal)
    (hword : t.word = []) (hword' : u.word = []) : t.trimmed = u.trimmed := by
  obtain ⟨p, -, ts, rfl, -, hne, -⟩ := ht.exists_node wf hn
  obtain ⟨q, -, us, rfl, -, hne', -⟩ := hu.exists_node wf (hroot ▸ hn)
  rw [word_node hne] at hword
  rw [word_node hne'] at hword'
  rw [trimmed_of_words_nil hne hword, trimmed_of_words_nil hne' hword',
    show p.lhs = q.lhs from hroot]

/-- The empty word has one derivation tree where no nonterminal of the
tree vanishes twice. -/
theorem eq_of_word_eq_nil (wf : g.WellFormed) (ht : IsDerivation g t) (hu : IsDerivation g u)
    (hroot : t.symbol = u.symbol) (hword : t.word = []) (hword' : u.word = [])
    (honce : ∀ v ∈ t.preorder, g.VanishesOnce v.symbol) : t = u := by
  induction ht generalizing u with
  | terminal s hs =>
    exact (terminal s hs).eq_of_symbol_eq wf hu hroot (Symbol.isTerminal_iff.1 hs).1
  | epsilon => exact IsDerivation.epsilon.eq_of_symbol_eq wf hu hroot rfl
  | node p mem ts hts below ih =>
    have hn : u.symbol.isNonterminal := hroot ▸ wf.lhs_isNonterminal mem
    obtain ⟨q, memq, us, rfl, hus, hne', below'⟩ := hu.exists_node wf hn
    have hlhs : p.lhs = q.lhs := hroot
    have hne := ne_nil_of_map_symbol wf mem hts
    rw [word_node hne] at hword
    rw [word_node hne'] at hword'
    have hp := hword ▸ derives_expansion wf mem hts below
    have hq := hword' ▸ derives_expansion wf memq hus below'
    obtain rfl := honce _ (mem_preorder_self _) p mem q memq rfl hlhs.symm hp hq
    rw [eq_of_map_eq (hts.trans hus.symm) fun t ht u hu hsymbol =>
      ih t ht (below' u hu) hsymbol (words_eq_nil.1 hword t ht) (words_eq_nil.1 hword' u hu)
        fun v hv => honce v (mem_preorder_of_mem ht hv)]

/-- Derivation trees that are the same when trimmed are the same where no
nonterminal of them vanishes twice. -/
theorem eq_of_trimmed_eq (wf : g.WellFormed) (ht : IsDerivation g t) (hu : IsDerivation g u)
    (htrim : t.trimmed = u.trimmed) (honce : ∀ v ∈ t.preorder, g.VanishesOnce v.symbol) :
    t = u := by
  have hroot : t.symbol = u.symbol := by rw [← symbol_trimmed t, htrim, symbol_trimmed]
  have hword : t.word = u.word := by rw [← word_trimmed t, htrim, word_trimmed]
  induction ht generalizing u with
  | terminal s hs =>
    exact (terminal s hs).eq_of_symbol_eq wf hu hroot (Symbol.isTerminal_iff.1 hs).1
  | epsilon => exact IsDerivation.epsilon.eq_of_symbol_eq wf hu hroot rfl
  | node p mem ts hts below ih =>
    by_cases hnil : words ts = []
    · have hne := ne_nil_of_map_symbol wf mem hts
      have hempty : (Tree.node p.lhs false ts).word = [] := by rw [word_node hne, hnil]
      exact (IsDerivation.node p mem ts hts below).eq_of_word_eq_nil wf hu hroot hempty
        (hword ▸ hempty) honce
    · have hn : u.symbol.isNonterminal := hroot ▸ wf.lhs_isNonterminal mem
      obtain ⟨q, -, us, rfl, -, hne', below'⟩ := hu.exists_node wf hn
      have hne : ts ≠ [] := by
        rintro rfl
        exact hnil words_nil
      rw [word_node hne, word_node hne'] at hword
      rw [trimmed_of_words_ne_nil hnil, trimmed_of_words_ne_nil (hword ▸ hnil), node.injEq] at htrim
      obtain ⟨hlhs, -, hall⟩ := htrim
      rw [trimmedAll_eq_map, trimmedAll_eq_map] at hall
      rw [hlhs, eq_of_map_eq hall fun t ht u hu htu =>
        ih t ht (below' u hu) htu (fun v hv => honce v (mem_preorder_of_mem ht hv))
          (by rw [← symbol_trimmed t, htu, symbol_trimmed])
          (by rw [← word_trimmed t, htu, word_trimmed])]

end IsDerivation

/-! ## What an unambiguous symbol allows -/

theorem IsDerivation.replace (mem : p ∈ g.productions) {before after : List Tree}
    (hrhs : (before ++ v :: after).map symbol = p.rhs)
    (hd : ∀ t ∈ before ++ v :: after, IsDerivation g t) (hu : IsDerivation g u)
    (hroot : u.symbol = v.symbol) : IsDerivation g (.node p.lhs false (before ++ u :: after)) := by
  refine .node p mem _ ?_ fun t ht => ?_
  · rw [← hrhs]
    simp [hroot]
  · rcases List.mem_append.1 ht with ht | ht
    · exact hd t (List.mem_append_left _ ht)
    · rcases List.mem_cons.1 ht with rfl | ht
      · exact hu
      · exact hd t (List.mem_append_right _ (List.mem_cons_of_mem _ ht))

end Tree

namespace Grammar.Unambiguous

open Predictive.Tree

variable {g : Grammar} {A : Symbol} {t u v : Tree}

/-- What is unambiguous at the root of a derivation tree is so at each of
its nodes. -/
theorem of_mem_preorder (h : g.Unambiguous t.symbol) (ht : IsDerivation g t)
    (hv : v ∈ t.preorder) : g.Unambiguous v.symbol := by
  induction ht with
  | terminal s hs =>
    obtain rfl := mem_preorder_matched.1 hv
    exact h
  | epsilon =>
    obtain rfl := mem_preorder_matched.1 hv
    exact h
  | node p mem ts hts below ih =>
    rw [preorder_eq] at hv
    rcases List.mem_cons.1 hv with rfl | hv
    · exact h
    · obtain ⟨c, hc, hv⟩ := mem_preorderAll.1 hv
      refine ih c hc ?_ hv
      obtain ⟨before, after, rfl⟩ := List.append_of_mem hc
      intro c₁ c₂ h₁ h₂ hroot₁ hroot₂ hword
      -- two trees in the place of one child make two trees of the node
      have heq := h _ _ (IsDerivation.replace mem hts below h₁ hroot₁)
        (IsDerivation.replace mem hts below h₂ hroot₂) rfl rfl (by
          rw [word_node (by simp), word_node (by simp), words_append, words_append, words_cons,
            words_cons, hword])
      rw [node.injEq] at heq
      exact (List.cons.inj (List.append_cancel_left heq.2.2)).1

theorem vanishesOnce (wf : g.WellFormed) (h : g.Unambiguous A) : g.VanishesOnce A := by
  rintro p hp q hq rfl hlhs hvanish hvanish'
  -- a tree for each way to vanish; both have the empty word
  obtain ⟨body, hbody⟩ := exists_forest wf hvanish (List.forall_mem_nil _)
  obtain ⟨body', hbody'⟩ := exists_forest wf hvanish' (List.forall_mem_nil _)
  obtain ⟨t, ht, hd, -, hword⟩ := (hbody.node wf hp).eq_singleton
  obtain ⟨u, hu, hd', -, hword'⟩ := (hbody'.node wf hq).eq_singleton
  obtain rfl := List.singleton_inj.1 ht
  obtain rfl := List.singleton_inj.1 hu
  have heq := h _ _ hd hd' rfl hlhs (hword.trans hword'.symm)
  rw [node.injEq] at heq
  have hrhs := congrArg (List.map symbol) heq.2.2
  rw [map_symbol_childrenOver hbody.roots, map_symbol_childrenOver hbody'.roots] at hrhs
  exact Production.ext hlhs.symm hrhs

end Grammar.Unambiguous

end Predictive
