import Predictive.Proofs.Tree.Yield

/-!
# Forests

Derivation trees over a sequence of symbols, with a word between them
(`IsForest`). Forests are put side by side and taken apart
(`IsForest.append`, `IsForest.split`); a production makes one tree of a
forest over what it expands to (`IsForest.node`), and the children of a
node give such a forest back (`exists_body`).

Every word that a sequence derives is the word of a forest over it
(`exists_forest`), by one node for each step of the derivation from its
end. So derivation trees and derivations describe the same language
(`isSentence_iff_tree`).
-/

namespace Predictive

/-- The children of a node that a production replaced: the trees over
what it expands to, or an ε leaf. -/
def Production.childrenOver (p : Production) (body : List Tree) : List Tree :=
  if p.isEpsilon then [.matched .epsilon] else body

namespace Tree

/-- Derivation trees over the symbols `l`, with the word `w`. -/
structure IsForest (g : Grammar) (l w : List Symbol) (ts : List Tree) : Prop where
  roots : ts.map symbol = l
  derivations : ∀ t ∈ ts, IsDerivation g t
  words_eq : words ts = w

variable {g : Grammar} {l l' w w' : List Symbol} {t : Tree} {ts ts' body : List Tree}
  {p : Production}

/-! ## Children -/

theorem map_symbol_childrenOver (h : body.map symbol = p.expansion) :
    (p.childrenOver body).map symbol = p.rhs := by
  rw [Production.expansion] at h
  rw [Production.childrenOver]
  split
  · next hp => exact (Production.isEpsilon_iff.1 hp).symm
  · next hp => rwa [if_neg hp] at h

theorem words_childrenOver (h : body.map symbol = p.expansion) :
    words (p.childrenOver body) = words body := by
  rw [Production.expansion] at h
  rw [Production.childrenOver]
  split
  · next hp =>
    rw [if_pos hp, List.map_eq_nil_iff] at h
    simp [h]
  · rfl

theorem mem_childrenOver {u : Tree} (h : u ∈ p.childrenOver body) :
    u = .matched .epsilon ∨ u ∈ body := by
  rw [Production.childrenOver] at h
  split at h
  · exact Or.inl (List.mem_singleton.1 h)
  · exact Or.inr h

/-! ## Forests side by side -/

namespace IsForest

theorem nil : IsForest g [] [] [] := ⟨rfl, List.forall_mem_nil _, words_nil⟩

theorem matched {s : Symbol} (hs : s.isTerminal) : IsForest g [s] [s] [.matched s] where
  roots := rfl
  derivations := List.forall_mem_singleton.2 (.terminal s hs)
  words_eq := by
    rw [words_cons, words_nil, word_matched, if_neg (Symbol.isTerminal_iff.1 hs).2,
      List.append_nil]

theorem append (h : IsForest g l w ts) (h' : IsForest g l' w' ts') :
    IsForest g (l ++ l') (w ++ w') (ts ++ ts') where
  roots := by rw [List.map_append, h.roots, h'.roots]
  derivations := List.forall_mem_append.2 ⟨h.derivations, h'.derivations⟩
  words_eq := by rw [words_append, h.words_eq, h'.words_eq]

theorem split (h : IsForest g (l ++ l') w ts) :
    ∃ ts₁ ts₂, ts = ts₁ ++ ts₂ ∧ w = words ts₁ ++ words ts₂ ∧ IsForest g l (words ts₁) ts₁ ∧
      IsForest g l' (words ts₂) ts₂ := by
  obtain ⟨ts₁, ts₂, rfl, h₁, h₂⟩ := List.map_eq_append_iff.1 h.roots
  obtain ⟨hd₁, hd₂⟩ := List.forall_mem_append.1 h.derivations
  exact ⟨ts₁, ts₂, rfl, by rw [← h.words_eq, words_append], ⟨h₁, hd₁, rfl⟩, ⟨h₂, hd₂, rfl⟩⟩

theorem of_cons (h : IsForest g l w (t :: ts)) :
    ∃ l', l = t.symbol :: l' ∧ IsDerivation g t ∧ w = t.word ++ words ts ∧
      IsForest g l' (words ts) ts := by
  obtain ⟨ht, hts⟩ := List.forall_mem_cons.1 h.derivations
  exact ⟨_, h.roots.symm, ht, by rw [← h.words_eq, words_cons], rfl, hts, rfl⟩

theorem eq_singleton {s : Symbol} (h : IsForest g [s] w ts) :
    ∃ t, ts = [t] ∧ IsDerivation g t ∧ t.symbol = s ∧ t.word = w := by
  obtain ⟨t, rfl, hroot⟩ := List.map_eq_singleton_iff.1 h.roots
  have hword := h.words_eq
  rw [words_cons, words_nil, List.append_nil] at hword
  exact ⟨t, rfl, h.derivations t (List.mem_singleton_self t), hroot, hword⟩

theorem singleton (h : IsDerivation g t) : IsForest g [t.symbol] t.word [t] where
  roots := rfl
  derivations := List.forall_mem_singleton.2 h
  words_eq := by rw [words_cons, words_nil, List.append_nil]

/-! ## Productions -/

theorem node (wf : g.WellFormed) (mem : p ∈ g.productions) (h : IsForest g p.expansion w body) :
    IsForest g [p.lhs] w [.node p.lhs false (p.childrenOver body)] where
  roots := rfl
  derivations := by
    refine List.forall_mem_singleton.2 (.node p mem _ (map_symbol_childrenOver h.roots) ?_)
    intro u hu
    rcases mem_childrenOver hu with rfl | hu
    · exact .epsilon
    · exact h.derivations u hu
  words_eq := by
    have hne := ne_nil_of_map_symbol wf mem (map_symbol_childrenOver h.roots)
    rw [words_cons, words_nil, word_node hne, words_childrenOver h.roots, h.words_eq,
      List.append_nil]

theorem derives (wf : g.WellFormed) (h : IsForest g l w ts) (hl : ∀ s ∈ l, g.IsKnown s) :
    g.Derives l w := by
  have hd := IsDerivation.derives_words fun t ht => (h.derivations t ht).derives_root wf
  have hε : l.filter (· != .epsilon) = l := List.filter_eq_self.2 fun s hs => by
    rw [bne_iff_ne]
    rintro rfl
    exact wf.epsilon_not_isKnown (hl _ hs)
  rwa [h.roots, hε, h.words_eq] at hd

theorem isTerminal_of_mem (wf : g.WellFormed) (h : IsForest g l w ts)
    (hl : ∀ s ∈ l, g.IsKnown s) {a : Symbol} (ha : a ∈ w) : a.isTerminal := by
  rw [← h.words_eq] at ha
  obtain ⟨t, ht, ha⟩ := mem_words.1 ha
  have hroot : g.IsKnown t.symbol := hl _ (h.roots ▸ List.mem_map_of_mem ht)
  exact Grammar.isTerminal_of_mem ((h.derivations t ht).mem_terminals wf hroot ha)

end IsForest

/-- The children of a node, without the ε leaf of the empty word. -/
theorem exists_body (wf : g.WellFormed) {below : List Tree} (hbelow : below.map symbol = p.rhs)
    (hd : ∀ u ∈ below, IsDerivation g u) :
    ∃ body, IsForest g p.expansion (words below) body ∧ (∀ u ∈ body, u ∈ below) ∧
      sizeAll body ≤ sizeAll below := by
  rw [Production.expansion]
  split
  · next hp =>
    rw [Production.isEpsilon_iff.1 hp] at hbelow
    obtain ⟨u, rfl, hu⟩ := List.map_eq_singleton_iff.1 hbelow
    have hword : words [u] = [] := by
      rw [(hd u (List.mem_cons_self ..)).eq_matched wf (by rw [hu]; rfl), hu]
      rfl
    rw [hword]
    exact ⟨[], .nil, List.forall_mem_nil _, by simp⟩
  · exact ⟨below, ⟨hbelow, hd, rfl⟩, fun u hu => hu, Nat.le_refl _⟩

/-! ## Forests from derivations -/

theorem exists_forest_of_produces (wf : g.WellFormed) {k : List Symbol} (h : g.Produces l k)
    (hts : IsForest g k w ts) : ∃ us, IsForest g l w us := by
  obtain ⟨before, after, p, mem⟩ := h
  obtain ⟨front, back, rfl, rfl, hfront, hback⟩ := hts.split
  obtain ⟨left, body, rfl, hwords, hleft, hbody⟩ := hfront.split
  rw [hwords, List.append_assoc]
  exact ⟨_, hleft.append ((hbody.node wf mem).append hback)⟩

/-- What a sequence derives, when it is made of terminals, is the word
of derivation trees over the sequence. -/
theorem exists_forest (wf : g.WellFormed) (h : g.Derives l w) (hw : ∀ a ∈ w, a.isTerminal) :
    ∃ ts, IsForest g l w ts := by
  induction h with
  | refl l =>
    induction l with
    | nil => exact ⟨[], .nil⟩
    | cons a l ih =>
      obtain ⟨ha, hl⟩ := List.forall_mem_cons.1 hw
      obtain ⟨ts, hts⟩ := ih hl
      exact ⟨_, (IsForest.matched ha).append hts⟩
  | head step _ ih =>
    obtain ⟨ts, hts⟩ := ih hw
    exact exists_forest_of_produces wf step hts

/-- Derivation trees from the start symbol describe the language. -/
theorem isSentence_iff_tree (wf : g.WellFormed) :
    g.IsSentence w ↔ ∃ t, IsDerivation g t ∧ t.symbol = g.start ∧ t.word = w := by
  constructor
  · rintro ⟨hw, hd⟩
    obtain ⟨ts, hts⟩ := exists_forest wf hd hw
    obtain ⟨t, -, ht⟩ := hts.eq_singleton
    exact ⟨t, ht⟩
  · rintro ⟨t, h, hroot, rfl⟩
    have hforest := IsForest.singleton h
    rw [hroot] at hforest
    have hknown : ∀ s ∈ [g.start], g.IsKnown s :=
      List.forall_mem_singleton.2 (Or.inl wf.start_mem)
    exact ⟨fun a ha => hforest.isTerminal_of_mem wf hknown ha, hforest.derives wf hknown⟩

end Tree

end Predictive
