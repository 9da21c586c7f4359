import Predictive.Proofs.Tree.Plain
import Predictive.Tree.Bracketed

/-!
# Trees on one line can be read

The printer keeps the nodes still to be entered or left on one list and
the texts already written on another. Whatever follows on the first and
lies on the second, entering a tree comes to putting its text on the
second (`Errand.run_enter`), so the printer writes what plain recursion
writes (`bracketed_eq_bracketForm`).

For plain trees nothing is lost. The text of a tree tells where it ends:
a bracket in front means a leaf, of three code points whatever the middle
one is, and a capital letter means that children follow, one blank before
each but the first, up to the closing parenthesis. Hence the text of a
tree, with anything behind it, determines both
(`IsPlain.eq_of_append_eq`). Symbols that are brackets, parentheses or
commas themselves do no harm.
-/

namespace Predictive

namespace Tree

variable {t u : Tree} {ts us : List Tree} {rest rest' : Text}

/-! ## The printer and the recursion -/

theorem bracketForms_eq_map (ts : List Tree) : bracketForms ts = ts.map bracketForm := by
  induction ts with
  | nil => rfl
  | cons t ts ih => rw [bracketForms, ih, List.map_cons]

namespace Errand

mutual
theorem run_enter : ∀ (t : Tree) (errands : List Errand) (parts : List Text),
    run (.enter t :: errands) parts = run errands (t.bracketForm :: parts)
  | .node s b [], errands, parts => by rw [run, bracketForm]
  | .node s b (t :: ts), errands, parts => by
    have hlength : (bracketForms (t :: ts)).reverse.length = (t :: ts).length := by
      rw [List.length_reverse, bracketForms_eq_map, List.length_map]
    -- the children's texts are the last ones that were written
    rw [run, run_enterAll (t :: ts), run, List.take_left' hlength, List.drop_left' hlength,
      List.reverse_reverse, bracketForm]

theorem run_enterAll : ∀ (ts : List Tree) (errands : List Errand) (parts : List Text),
    run (ts.map .enter ++ errands) parts = run errands ((bracketForms ts).reverse ++ parts)
  | [], errands, parts => by rw [bracketForms]; rfl
  | t :: ts, errands, parts => by
    rw [List.map_cons, List.cons_append, run_enter t, run_enterAll ts, bracketForms,
      List.reverse_cons, List.append_assoc]
    rfl
end

end Errand

theorem bracketed_eq_bracketForm (t : Tree) : t.bracketed = t.bracketForm := by
  rw [bracketed, Errand.run_enter, Errand.run]
  rfl

theorem bracketForm_leaf (s : Symbol) (b : Bool) :
    (node s b []).bracketForm = (node s b []).label := by
  rw [bracketForm]

theorem bracketForm_inner (h : ts ≠ []) (s : Symbol) (b : Bool) :
    (node s b ts).bracketForm = enclose s (ts.map bracketForm) := by
  cases ts with
  | nil => exact absurd rfl h
  | cons t ts => rw [bracketForm, bracketForms_eq_map]

/-! ## Reading -/

/-- The texts of the children of a node, and what closes them. -/
def childrenText (ts : List Tree) : Text := Text.join " " (ts.map bracketForm) ++ ")"

theorem childrenText_singleton (t : Tree) : childrenText [t] = t.bracketForm ++ ")" := by
  rw [childrenText, List.map_singleton, Text.join_singleton]

theorem childrenText_cons_cons (t u : Tree) (ts : List Tree) :
    childrenText (t :: u :: ts) = t.bracketForm ++ " " ++ childrenText (u :: ts) := by
  rw [childrenText, childrenText, List.map_cons, List.map_cons, Text.join_cons_cons,
    List.append_assoc]

/-- The texts of children determine them, where each child's text tells
where it ends. -/
theorem eq_of_childrenText_append_eq
    (hends : ∀ t ∈ ts, ∀ u rest rest', IsPlain u →
      t.bracketForm ++ rest = u.bracketForm ++ rest' → t = u ∧ rest = rest')
    (hus : ∀ u ∈ us, IsPlain u) (hts : ts ≠ []) (hne : us ≠ [])
    (h : childrenText ts ++ rest = childrenText us ++ rest') : ts = us ∧ rest = rest' := by
  induction ts generalizing us with
  | nil => exact absurd rfl hts
  | cons t ts ih =>
    obtain ⟨u, us, rfl⟩ := List.exists_cons_of_ne_nil hne
    obtain ⟨ht, hbehind⟩ := List.forall_mem_cons.1 hends
    obtain ⟨hu, hplain⟩ := List.forall_mem_cons.1 hus
    cases ts with
    | nil =>
      rw [childrenText_singleton, List.append_assoc] at h
      cases us with
      | nil =>
        rw [childrenText_singleton, List.append_assoc] at h
        obtain ⟨rfl, hrest⟩ := ht u _ _ hu h
        exact ⟨rfl, List.append_cancel_left hrest⟩
      | cons v us =>
        rw [childrenText_cons_cons, List.append_assoc, List.append_assoc] at h
        cases (ht u _ _ hu h).2
    | cons t' ts =>
      rw [childrenText_cons_cons, List.append_assoc, List.append_assoc] at h
      cases us with
      | nil =>
        rw [childrenText_singleton, List.append_assoc] at h
        cases (ht u _ _ hu h).2
      | cons v us =>
        rw [childrenText_cons_cons, List.append_assoc, List.append_assoc] at h
        obtain ⟨rfl, hrest⟩ := ht u _ _ hu h
        obtain ⟨heq, rfl⟩ := ih hbehind hplain (List.cons_ne_nil _ _) (List.cons_ne_nil _ _)
          (List.append_cancel_left hrest)
        exact ⟨congrArg _ heq, rfl⟩

theorem bracketForm_matched (c : CodePoint) :
    (matched (.single c)).bracketForm = [.char '[', c, .char ']'] := by
  rw [matched, bracketForm_leaf]
  rfl

theorem bracketForm_capital (c : CodePoint) (h : ts ≠ []) :
    (node (.single c) false ts).bracketForm = c :: .char '(' :: childrenText ts := by
  rw [bracketForm_inner h, enclose, childrenText]
  rfl

theorem ne_bracket_of_isNonterminal {c : CodePoint} (h : (Symbol.single c).isNonterminal) :
    c ≠ .char '[' := by
  rintro rfl
  exact absurd h (by decide)

/-- The text of a plain tree, with anything behind it, determines both. -/
theorem IsPlain.eq_of_append_eq (ht : IsPlain t) (hu : IsPlain u)
    (h : t.bracketForm ++ rest = u.bracketForm ++ rest') : t = u ∧ rest = rest' := by
  induction ht generalizing u rest rest' with
  | leaf c visible =>
    rw [bracketForm_matched] at h
    cases hu with
    | leaf d visible' =>
      rw [bracketForm_matched] at h
      obtain ⟨rfl, rfl⟩ : c = d ∧ rest = rest' := by simpa using h
      exact ⟨rfl, rfl⟩
    | inner B hB us hne hus =>
      obtain ⟨d, rfl, -⟩ := Symbol.exists_single hB
      rw [bracketForm_capital d hne] at h
      exact absurd (List.cons.inj h).1.symm (ne_bracket_of_isNonterminal hB)
  | inner A hA ts hts below ih =>
    obtain ⟨c, rfl, -⟩ := Symbol.exists_single hA
    rw [bracketForm_capital c hts] at h
    cases hu with
    | leaf d visible =>
      rw [bracketForm_matched] at h
      exact absurd (List.cons.inj h).1 (ne_bracket_of_isNonterminal hA)
    | inner B hB us hus below' =>
      obtain ⟨d, rfl, -⟩ := Symbol.exists_single hB
      rw [bracketForm_capital d hus] at h
      obtain ⟨rfl, htail⟩ := List.cons.inj h
      obtain ⟨rfl, rfl⟩ := eq_of_childrenText_append_eq (fun t ht u _ _ hu => ih t ht hu) below'
        hts hus (List.cons.inj htail).2
      exact ⟨rfl, rfl⟩

/-! ## The law of trees on one line -/

/-- A leaf is printed as its symbol, in brackets where it was matched, and
any other node as its symbol with its children behind it in parentheses,
one blank between them. The trees of accepted texts, of one grammar or of
two, are the same where they are printed alike. -/
theorem bracketed_law :
    (∀ t : Tree, t.bracketed =
      if t.children = [] then
        if t.isTerminal then "[" ++ t.symbol.text ++ "]" else t.symbol.text
      else t.symbol.text ++ "(" ++ Text.join " " (t.children.map bracketed) ++ ")") ∧
    ∀ pairs pairs' g h, Grammar.load pairs = .ok g → Grammar.load pairs' = .ok h →
      ∃ s s', g.study = .ok s ∧ h.study = .ok s' ∧
        ∀ text text' t u, (s.parse text).tree? = some t → (s'.parse text').tree? = some u →
          t.bracketed = u.bracketed → t = u := by
  constructor
  · rintro ⟨symbol, isTerminal, children⟩
    rw [bracketed_eq_bracketForm, funext bracketed_eq_bracketForm]
    by_cases hleaf : children = []
    · subst hleaf
      exact bracketForm_leaf symbol isTerminal
    · exact (bracketForm_inner hleaf symbol isTerminal).trans (if_neg hleaf).symm
  · intro pairs pairs' g h hg hh
    obtain ⟨s, hs, hof⟩ := Grammar.exists_study (Grammar.wellFormed_of_load hg)
    obtain ⟨s', hs', hof'⟩ := Grammar.exists_study (Grammar.wellFormed_of_load hh)
    refine ⟨s, s', hs, hs', fun text text' t u ht hu heq => ?_⟩
    rw [bracketed_eq_bracketForm, bracketed_eq_bracketForm] at heq
    have hplain := hof.isPlain (Grammar.wellFormed_of_load hg) ht
    have hplain' := hof'.isPlain (Grammar.wellFormed_of_load hh) hu
    exact (hplain.eq_of_append_eq hplain' (congrArg (· ++ []) heq)).1

/-- Two trees over the same text of brackets and parentheses, which are
printed differently because they are different. -/
theorem bracketed_law_of_brackets :
    ∃ g h s s' t u, Grammar.load [("S", ["AB"]), ("A", ["()"]), ("B", ["[]"])] = .ok g ∧
      Grammar.load [("S", ["()[B"]), ("B", ["]"])] = .ok h ∧ g.study = .ok s ∧ h.study = .ok s' ∧
      (s.parse "()[]").tree? = some t ∧ (s'.parse "()[]").tree? = some u ∧
      t.bracketed = "S(A([(] [)]) B([[] []]))" ∧ t.bracketed ≠ u.bracketed := by
  obtain ⟨g, hg⟩ : ∃ g, Grammar.load [("S", ["AB"]), ("A", ["()"]), ("B", ["[]"])] = .ok g :=
    ⟨_, rfl⟩
  obtain ⟨h, hh⟩ : ∃ h, Grammar.load [("S", ["()[B"]), ("B", ["]"])] = .ok h := ⟨_, rfl⟩
  obtain ⟨s, s', hs, hs', hinjective⟩ := bracketed_law.2 _ _ g h hg hh
  have htree : (s.parse "()[]").tree? = some (.node (.single 'S') false
      [.node (.single 'A') false [.matched (.single '('), .matched (.single ')')],
        .node (.single 'B') false [.matched (.single '['), .matched (.single ']')]]) := by
    apply Grammar.computed_eq (f := fun _ s => (s.parse "()[]").tree?) hg hs
    decide +kernel
  have hcount : ((s'.parse "()[]").tree?.map fun u => u.children.length) = some 4 := by
    apply Grammar.computed_eq hh hs'
      (f := fun _ s => (s.parse "()[]").tree?.map fun u => u.children.length)
    decide +kernel
  obtain ⟨u, hu, hfour⟩ := Option.map_eq_some_iff.1 hcount
  refine ⟨g, h, s, s', _, u, hg, hh, hs, hs', htree, hu, ?_, fun heq => ?_⟩
  · rw [bracketed_eq_bracketForm]
    decide +kernel
  · rw [← hinjective _ _ _ _ htree hu heq] at hfour
    cases hfour

end Tree

end Predictive
