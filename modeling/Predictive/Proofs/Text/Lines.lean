import Mathlib.Data.List.Infix
import Predictive.Text.Basic

/-!
# Texts without blanks

A text that is visible, without any blank, is what the readers of lines
leave alone: stripping and dropping blanks change nothing, and no line
ends inside it. So lines that are visible and not empty come back from
the text that has a line end between them (`lines_join`).

A text is cut at the first place where the mark stands. It is not cut
where the mark stands nowhere (`cutAt?_eq_none`), and a mark cannot
stand across a code point that is none of its own
(`isInfix_append_cons`).
-/

namespace Predictive

namespace Text

variable {t before after mark : Text} {c x y : CodePoint}

/-! ## Visible texts -/

/-- No code point of the text is a blank. -/
def IsVisible (t : Text) : Prop := ∀ c ∈ t, isBlank c = false

instance (t : Text) : Decidable t.IsVisible :=
  inferInstanceAs (Decidable (∀ c ∈ t, isBlank c = false))

theorem IsVisible.append (h : IsVisible before) (h' : IsVisible after) :
    IsVisible (before ++ after) :=
  List.forall_mem_append.2 ⟨h, h'⟩

theorem dropWhile_isBlank_of_isVisible (h : IsVisible t) : t.dropWhile isBlank = t := by
  cases t with
  | nil => rfl
  | cons c t => rw [List.dropWhile_cons, h c (List.mem_cons_self ..), if_neg Bool.false_ne_true]

theorem strip_of_isVisible (h : IsVisible t) : strip t = t := by
  have hreverse : IsVisible t.reverse := fun c hc => h c (List.mem_reverse.1 hc)
  rw [strip, dropWhile_isBlank_of_isVisible h, dropWhile_isBlank_of_isVisible hreverse,
    List.reverse_reverse]

theorem unblank_of_isVisible (h : IsVisible t) : unblank t = t := by
  refine List.filter_eq_self.2 fun c hc => ?_
  rw [h c hc]
  rfl

theorem isBlank_of_isLineBreak (h : isLineBreak c) : isBlank c := by
  simp only [isLineBreak, isBlank, Bool.or_eq_true, Bool.and_eq_true, decide_eq_true_eq,
    beq_iff_eq] at h ⊢
  omega

theorem isLineBreak_of_isVisible (h : IsVisible t) : ∀ c ∈ t, isLineBreak c = false := by
  intro c hc
  rw [Bool.eq_false_iff]
  intro hbreak
  have hblank := isBlank_of_isLineBreak hbreak
  rw [h c hc] at hblank
  cases hblank

/-! ## Lines -/

theorem linesFrom_cons (h : isLineBreak c = false) (begun rest : Text) :
    linesFrom begun (c :: rest) = linesFrom (c :: begun) rest := by
  have hreturn : c ≠ .char '\r' := by
    rintro rfl
    cases h
  rw [linesFrom]
  · rw [h, if_neg Bool.false_ne_true]
  · rintro r rfl
    exact absurd rfl hreturn

theorem linesFrom_append (h : ∀ c ∈ t, isLineBreak c = false) (begun rest : Text) :
    linesFrom begun (t ++ rest) = linesFrom (t.reverse ++ begun) rest := by
  induction t generalizing begun with
  | nil => rfl
  | cons c t ih =>
    obtain ⟨hc, ht⟩ := List.forall_mem_cons.1 h
    rw [List.cons_append, linesFrom_cons hc, ih ht, List.reverse_cons, List.append_assoc]
    rfl

/-- A line that is not the last ends at its break. -/
theorem lines_append_cons (h : ∀ c ∈ t, isLineBreak c = false) (rest : Text) :
    lines (t ++ .char '\n' :: rest) = t :: lines rest := by
  rw [lines, linesFrom_append h, List.append_nil, linesFrom, List.reverse_reverse]
  · rfl
  · rintro r hr
    cases hr

theorem lines_of_no_break (hne : t ≠ []) (h : ∀ c ∈ t, isLineBreak c = false) :
    lines t = [t] := by
  have hread := linesFrom_append h [] []
  rw [List.append_nil, List.append_nil] at hread
  rw [lines, hread, linesFrom, List.reverse_reverse, if_neg]
  simpa using hne

theorem join_singleton (sep t : Text) : join sep [t] = t := by
  simp [join, List.intercalate]

theorem join_cons_cons (sep before part : Text) (parts : List Text) :
    join sep (before :: part :: parts) = before ++ sep ++ join sep (part :: parts) := by
  simp [join, List.intercalate]

/-- Visible lines come back from the text in which they are joined. -/
theorem lines_join {ls : List Text} (h : ∀ t ∈ ls, t ≠ [] ∧ IsVisible t) :
    lines (join "\n" ls) = ls := by
  induction ls with
  | nil => rfl
  | cons t ls ih =>
    obtain ⟨⟨hne, hvisible⟩, hls⟩ := List.forall_mem_cons.1 h
    have hbreak := isLineBreak_of_isVisible hvisible
    cases ls with
    | nil =>
      rw [join_singleton]
      exact lines_of_no_break hne hbreak
    | cons t' ls =>
      rw [join_cons_cons, List.append_assoc]
      exact (lines_append_cons hbreak _).trans (congrArg (t :: ·) (ih hls))

/-! ## Cuts -/

theorem cutAt?_eq_none (h : ¬ mark <:+: t) : cutAt? mark t = none := by
  cases hcut : cutAt? mark t with
  | none => rfl
  | some parts =>
    exact absurd ⟨parts.1, parts.2, (cutAt?_eq_some hcut).symm⟩ h

/-- A text is cut where the mark stands behind a single code point that
is none of its own. -/
theorem cutAt?_cons_append (hne : mark ≠ []) (h : c ∉ mark) (rest : Text) :
    cutAt? mark (c :: (mark ++ rest)) = some ([c], rest) := by
  cases mark with
  | nil => exact absurd rfl hne
  | cons d mark =>
    have hbefore : ¬ (d :: mark).isPrefixOf (c :: (d :: mark ++ rest)) = true := by
      intro hprefix
      obtain ⟨rfl, -⟩ := List.cons_prefix_cons.1 (List.isPrefixOf_iff_prefix.1 hprefix)
      exact h (List.mem_cons_self ..)
    have hfront : (d :: mark).isPrefixOf (d :: (mark ++ rest)) = true :=
      List.isPrefixOf_iff_prefix.2 (List.prefix_append (d :: mark) rest)
    rw [cutAt?, if_neg hbefore, List.cons_append, cutAt?, hfront, if_pos rfl, ← List.cons_append,
      List.drop_left]
    rfl

/-- A mark of two code points does not stand across a third. -/
theorem isInfix_append_cons (hx : c ≠ x) (hy : c ≠ y) (h : [x, y] <:+: before ++ c :: after) :
    [x, y] <:+: before ∨ [x, y] <:+: after := by
  induction before with
  | nil =>
    rcases List.infix_cons_iff.1 h with hprefix | hinfix
    · exact absurd (List.cons_prefix_cons.1 hprefix).1.symm hx
    · exact Or.inr hinfix
  | cons d before ih =>
    rcases List.infix_cons_iff.1 h with hprefix | hinfix
    · obtain ⟨rfl, hrest⟩ := List.cons_prefix_cons.1 hprefix
      -- the mark begins here, so `c` or the next code point is its second one
      cases before with
      | nil => exact absurd (List.cons_prefix_cons.1 hrest).1.symm hy
      | cons e before =>
        obtain ⟨rfl, -⟩ := List.cons_prefix_cons.1 hrest
        exact Or.inl (List.IsPrefix.isInfix ⟨before, rfl⟩)
    · exact (ih hinfix).imp_left List.infix_cons

end Text

end Predictive
