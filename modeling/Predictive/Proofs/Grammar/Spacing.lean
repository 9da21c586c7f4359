import Mathlib.Data.List.DropRight
import Predictive.Grammar.Notation
import Predictive.Grammar.WellFormed
import Predictive.Proofs.Text.Lines

/-!
# Blanks, empty lines and comments do not matter

A line may have blanks put in anywhere but inside an arrow (`Spaced`),
and a source empty lines and comments anywhere (`Respaced`). Both leave
the grammar alone (`spacing_irrelevant`).

What counts of a line is its reading (`reading?`), the left-hand side
and the alternatives without their blanks; loading asks for no more than
that (`load_map_bare`). The reading takes up to three cuts, and each of
them is the same with blanks and without.

- An arrow of two signs is found where it was, since blanks neither make
  one nor come inside one (`Spaced.cutBare_arrow`). For this cut alone it
  counts where the blanks are.
- An equals sign and the mark between alternatives are single visible
  signs. They are found in the text without its blanks (`cutBare_sign`,
  `map_unblank_splitOn`).
- Taking blanks off the ends of a line undoes putting them in there
  (`spaced_strip`).
-/

namespace Predictive

namespace Text

variable {t t' : Text} {c m : CodePoint}

theorem unblank_cons (c : CodePoint) (t : Text) :
    unblank (c :: t) = if isBlank c then unblank t else c :: unblank t := by
  rw [unblank, List.filter_cons]
  cases isBlank c <;> rfl

theorem unblank_unblank (t : Text) : unblank (unblank t) = unblank t := by
  simp [unblank, List.filter_filter]

/-! ## Blanks put in -/

/-- The second text is the first with blanks put in, anywhere but between
the two signs of an arrow. -/
inductive Spaced : Text → Text → Prop
  | nil : Spaced [] []
  | blank {c : CodePoint} {t t' : Text} (hc : isBlank c) (h : Spaced t t') : Spaced t (c :: t')
  | sign {c : CodePoint} {t t' : Text}
      (harrow : c = '-' → t.head? = some (.char '>') → t'.head? = some (.char '>'))
      (h : Spaced t t') : Spaced (c :: t) (c :: t')

def isSpaced : Text → Text → Bool
  | t, [] => t.isEmpty
  | t, c :: t' =>
    (isBlank c && isSpaced t t') ||
      match t with
      | [] => false
      | d :: t => d == c && decide (c = '-' → t.head? = some (.char '>') →
          t'.head? = some (.char '>')) && isSpaced t t'

theorem isSpaced_iff : ∀ {t t' : Text}, isSpaced t t' ↔ Spaced t t'
  | t, [] => by
    rw [isSpaced, List.isEmpty_iff]
    constructor
    · rintro rfl
      exact .nil
    · rintro ⟨⟩
      rfl
  | [], c :: t' => by
    rw [isSpaced, Bool.or_false, Bool.and_eq_true, isSpaced_iff]
    constructor
    · rintro ⟨hc, h⟩
      exact .blank hc h
    · rintro ⟨⟩
      exact ⟨‹_›, ‹_›⟩
  | d :: t, c :: t' => by
    simp only [isSpaced, Bool.or_eq_true, Bool.and_eq_true, beq_iff_eq, decide_eq_true_eq,
      isSpaced_iff]
    constructor
    · rintro (⟨hc, h⟩ | ⟨⟨rfl, harrow⟩, h⟩)
      · exact .blank hc h
      · exact .sign harrow h
    · intro h
      cases h with
      | blank hc h => exact Or.inl ⟨hc, h⟩
      | sign harrow h => exact Or.inr ⟨⟨rfl, harrow⟩, h⟩

instance (t t' : Text) : Decidable (Spaced t t') := decidable_of_iff _ isSpaced_iff

namespace Spaced

protected theorem refl (t : Text) : Spaced t t := by
  induction t with
  | nil => exact .nil
  | cons c t ih => exact .sign (fun _ ht => ht) ih

theorem concat_blank (h : Spaced t t') (hc : isBlank c) : Spaced t (t' ++ [c]) := by
  induction h with
  | nil => exact .blank hc .nil
  | blank hd _ ih => exact .blank hd ih
  | @sign d t t' harrow _ ih =>
    refine .sign (fun hd ht => ?_) ih
    show (t' ++ [c]).head? = _
    rw [List.head?_append, harrow hd ht, Option.some_or]

theorem unblank_eq (h : Spaced t t') : unblank t' = unblank t := by
  induction h with
  | nil => rfl
  | blank hc _ ih => rw [unblank_cons, if_pos hc, ih]
  | sign _ _ ih => rw [unblank_cons, unblank_cons, ih]

theorem head?_eq (h : Spaced t t') (hc : isBlank c = false) (ht' : t'.head? = some c) :
    t.head? = some c := by
  cases h with
  | nil => exact ht'
  | blank hd =>
    rw [Option.some.inj ht', hc] at hd
    cases hd
  | sign => exact ht'

end Spaced

theorem Spaced.of_dropWhile (h : Spaced t (t'.dropWhile isBlank)) : Spaced t t' := by
  induction t' with
  | nil => exact h
  | cons c t' ih =>
    rw [List.dropWhile_cons] at h
    split at h
    · next hc => exact .blank hc (ih h)
    · exact h

theorem spaced_rdropWhile (t : Text) : Spaced (t.rdropWhile isBlank) t := by
  induction t using List.reverseRecOn with
  | nil => exact .nil
  | append_singleton t c ih =>
    rw [List.rdropWhile_concat]
    split
    · next hc => exact ih.concat_blank hc
    · exact Spaced.refl _

/-- A text is what stripping leaves of it, with blanks put in at its
ends. -/
theorem spaced_strip (t : Text) : Spaced (strip t) t :=
  (spaced_rdropWhile (t.dropWhile isBlank)).of_dropWhile

theorem isBlank_of_head?_strip (h : (strip t).head? = some c) : isBlank c = false := by
  have hprefix : strip t <+: t.dropWhile isBlank := List.rdropWhile_prefix isBlank _
  obtain ⟨rest, hrest⟩ := hprefix
  have hstop := List.head?_dropWhile_not isBlank t
  rwa [← hrest, List.head?_append, h, Option.some_or] at hstop

/-! ## Cuts without blanks -/

/-- The parts of a cut without their blanks. -/
def cutBare (mark t : Text) : Option (Text × Text) :=
  (cutAt? mark t).map fun (before, after) => (unblank before, unblank after)

theorem cutBare_of_begins {mark : Text} (h : mark <+: c :: t) :
    cutBare mark (c :: t) = some ([], unblank ((c :: t).drop mark.length)) := by
  rw [cutBare, cutAt?, if_pos (List.isPrefixOf_iff_prefix.2 h)]
  rfl

theorem cutBare_of_not_begins {mark : Text} (h : ¬ mark <+: c :: t) :
    cutBare mark (c :: t) =
      (cutBare mark t).map fun (before, after) => (unblank [c] ++ before, after) := by
  rw [cutBare, cutAt?, if_neg (mt List.isPrefixOf_iff_prefix.1 h), cutBare]
  cases cutAt? mark t with
  | none => rfl
  | some parts => simp [unblank, ← List.filter_append]

theorem arrow_prefix_iff : ("->" : Text) <+: c :: t ↔ c = '-' ∧ t.head? = some (.char '>') := by
  constructor
  · rintro ⟨rest, hrest⟩
    obtain ⟨rfl, rfl⟩ := List.cons.inj hrest
    exact ⟨rfl, rfl⟩
  · rintro ⟨rfl, ht⟩
    obtain ⟨rest, rfl⟩ := List.head?_eq_some_iff.1 ht
    exact List.prefix_append _ rest

/-- A cut at an arrow is the same where blanks are put in. -/
theorem Spaced.cutBare_arrow (h : Spaced t t') : cutBare "->" t' = cutBare "->" t := by
  induction h with
  | nil => rfl
  | @blank c t t' hc h ih =>
    have hno : ¬ ("->" : Text) <+: c :: t' := by
      rw [arrow_prefix_iff]
      rintro ⟨rfl, -⟩
      cases hc
    rw [cutBare_of_not_begins hno, unblank_cons, if_pos hc, ih]
    exact Option.map_id'
  | @sign c t t' harrow h ih =>
    by_cases hat : ("->" : Text) <+: c :: t
    · -- the arrow is still whole, so both cuts are here
      obtain ⟨rfl, ht⟩ := arrow_prefix_iff.1 hat
      have hat' : ("->" : Text) <+: .char '-' :: t' := arrow_prefix_iff.2 ⟨rfl, harrow rfl ht⟩
      obtain ⟨rest', rfl⟩ := List.head?_eq_some_iff.1 (harrow rfl ht)
      obtain ⟨rest, rfl⟩ := List.head?_eq_some_iff.1 ht
      have hrest : unblank rest' = unblank rest := List.cons.inj h.unblank_eq |>.2
      rw [cutBare_of_begins hat', cutBare_of_begins hat]
      exact congrArg (fun after => some ([], after)) hrest
    · have hat' : ¬ ("->" : Text) <+: c :: t' := by
        rw [arrow_prefix_iff] at hat ⊢
        exact fun ⟨he, ht'⟩ => hat ⟨he, h.head?_eq (by decide) ht'⟩
      rw [cutBare_of_not_begins hat', cutBare_of_not_begins hat, ih]

/-- A cut at a visible sign is the cut of the text without its blanks. -/
theorem cutBare_sign (hm : isBlank m = false) (t : Text) :
    cutBare [m] t = cutAt? [m] (unblank t) := by
  induction t with
  | nil => rfl
  | cons c t ih =>
    by_cases hcm : c = m
    · subst hcm
      have hat : ∀ t : Text, [c] <+: c :: t := fun t => List.prefix_append [c] t
      rw [cutBare_of_begins (hat t), unblank_cons, hm, if_neg Bool.false_ne_true, cutAt?,
        if_pos (List.isPrefixOf_iff_prefix.2 (hat _))]
      rfl
    · have hno : ∀ t : Text, ¬ [m] <+: c :: t := fun t h => hcm (List.cons_prefix_cons.1 h).1.symm
      rw [cutBare_of_not_begins (hno t), ih, unblank_cons, unblank_cons]
      split
      · exact Option.map_id'
      · rw [cutAt?, if_neg (mt List.isPrefixOf_iff_prefix.1 (hno _))]
        rfl

/-- The pieces between visible signs without their blanks are the pieces
of the text without its blanks. -/
theorem map_unblank_splitOn (hm : isBlank m = false) (t : Text) :
    (t.splitOn m).map unblank = (unblank t).splitOn m := by
  induction t with
  | nil => rfl
  | cons c t ih =>
    rw [List.splitOn_cons_eq_if_modifyHead, unblank_cons]
    by_cases hcm : c = m
    · subst hcm
      rw [if_pos (beq_self_eq_true c), hm, if_neg Bool.false_ne_true,
        List.splitOn_cons_eq_if_modifyHead, if_pos (beq_self_eq_true c), ← ih]
      rfl
    · have hne : ¬ (c == m) = true := by simpa using hcm
      rw [if_neg hne]
      obtain ⟨piece, pieces, hpieces⟩ := List.exists_cons_of_ne_nil (List.splitOn_ne_nil m t)
      rw [hpieces, List.map_cons] at ih
      rw [hpieces, List.modifyHead_cons, List.map_cons, unblank_cons]
      split
      · exact ih
      · rw [List.splitOn_cons_eq_if_modifyHead, if_neg hne, ← ih, List.modifyHead_cons]

end Text

namespace Grammar

open Text

/-! ## Readings -/

/-- What counts of a line when it can be read: the left-hand side and the
alternatives without their blanks. -/
def reading? (line : Text) : Option (Text × List Text) :=
  (readLine line).toOption.map fun (head, alternatives) => (head, alternatives.map unblank)

/-- What counts of the two parts of a line. -/
def readingOf? (mark : CodePoint) (parts : Text × Text) : Option (Text × List Text) :=
  if parts.1.isEmpty then none else some (parts.1, parts.2.splitOn mark)

/-- A reading takes a cut at an arrow, or else at an equals sign, and
cuts at the mark that goes with it. -/
theorem reading?_eq (line : Text) :
    reading? line =
      match cutBare "->" line with
      | some parts => readingOf? '|' parts
      | none => (cutBare "=" line).bind (readingOf? '/') := by
  have hparts : ∀ (left right : Text) (mark : CodePoint), isBlank mark = false →
      ((if (unblank left).isEmpty then .error (.emptyHead line)
        else .ok (unblank left, right.splitOn mark) : Except GrammarError _).toOption.map
          fun (head, alternatives) => (head, alternatives.map unblank)) =
        readingOf? mark (unblank left, unblank right) := by
    intro left right mark hmark
    rw [readingOf?, ← map_unblank_splitOn hmark]
    split <;> rfl
  rw [reading?, readLine, cutBare, cutBare]
  cases cutAt? "->" line with
  | some parts => exact hparts _ _ _ (by decide)
  | none =>
    cases cutAt? "=" line with
    | some parts => exact hparts _ _ _ (by decide)
    | none => rfl

theorem reading?_of_spaced {t t' : Text} (h : Spaced t t') : reading? t' = reading? t := by
  have hequals : isBlank '=' = false := by decide
  rw [reading?_eq, reading?_eq, h.cutBare_arrow]
  simp only [show ("=" : Text) = [.char '='] from rfl, cutBare_sign hequals, h.unblank_eq]

theorem reading?_strip (line : Text) : reading? (strip line) = reading? line :=
  (reading?_of_spaced (spaced_strip line)).symm

/-! ## Loading -/

/-- What counts of a pair. -/
def bare (pair : Text × List Text) : Text × List Text := (pair.1, pair.2.map unblank)

theorem isAlternative_unblank_iff {alternative : Text} :
    IsAlternative (unblank alternative) ↔ IsAlternative alternative := by
  rw [IsAlternative, unblank_unblank, IsAlternative]

theorem normalized_unblank (alternative : Text) :
    normalized (unblank alternative) = normalized alternative := by
  rw [normalized, unblank_unblank, normalized]

theorem isFit_bare_iff {pair : Text × List Text} : IsFit (bare pair) ↔ IsFit pair := by
  constructor
  · rintro ⟨hhead, halternatives⟩
    exact ⟨hhead, fun a ha => isAlternative_unblank_iff.1 (halternatives _ (List.mem_map_of_mem ha))⟩
  · rintro ⟨hhead, halternatives⟩
    exact ⟨hhead, List.forall_mem_map.2 fun a ha => isAlternative_unblank_iff.2 (halternatives a ha)⟩

theorem merge_bare (rules : OrderedMap Symbol (List (List Symbol))) (pair : Text × List Text) :
    merge rules (bare pair) = merge rules pair := by
  have hbodies : (bare pair).2.map normalized = pair.2.map normalized := by
    rw [bare, List.map_map]
    exact List.map_congr_left fun a _ => normalized_unblank a
  rw [merge, hbodies]
  rfl

theorem merged_map_bare (pairs : List (Text × List Text)) :
    merged (pairs.map bare) = merged pairs := by
  simp only [merged, List.foldl_map, merge_bare]

theorem load_map_bare {pairs : List (Text × List Text)} {g : Grammar} :
    load (pairs.map bare) = .ok g ↔ load pairs = .ok g := by
  rw [load_eq_ok_iff, load_eq_ok_iff, merged_map_bare, List.forall_mem_map]
  simp only [isFit_bare_iff]

/-! ## Sources -/

/-- A line that is skipped: it has no visible sign, or the first one is a
number sign. -/
def IsRemark (line : Text) : Prop := unblank line = [] ∨ (unblank line).head? = some (.char '#')

instance (line : Text) : Decidable (IsRemark line) := inferInstanceAs (Decidable (_ ∨ _))

theorem isProductionLine_strip_iff {line : Text} :
    isProductionLine (strip line) ↔ ¬ IsRemark line := by
  rw [IsRemark, ← unblank_strip line]
  cases hline : strip line with
  | nil => exact iff_of_false Bool.false_ne_true fun h => h (Or.inl rfl)
  | cons c rest =>
    have hc : isBlank c = false := isBlank_of_head?_strip (by rw [hline]; rfl)
    rw [unblank_cons, hc, if_neg Bool.false_ne_true]
    simp [isProductionLine]

/-- The second source is the first with blanks put into its lines and
with further lines that are skipped. -/
inductive Respaced : List Text → List Text → Prop
  | nil : Respaced [] []
  | line {t t' : Text} {ts ts' : List Text} (h : Spaced t t') (hs : Respaced ts ts') :
      Respaced (t :: ts) (t' :: ts')
  | remark {t : Text} {ts ts' : List Text} (h : IsRemark t) (hs : Respaced ts ts') :
      Respaced ts (t :: ts')

/-- What counts of a source when all its lines can be read. -/
def readings? (source : List Text) : Option (List (Text × List Text)) :=
  (productionLines source).mapM reading?

theorem readings?_cons (line : Text) (source : List Text) :
    readings? (line :: source) =
      if IsRemark line then readings? source
      else do
        let pair ← reading? line
        let pairs ← readings? source
        return pair :: pairs := by
  rw [readings?, productionLines, List.map_cons]
  split
  · next h =>
    rw [List.filter_cons_of_neg fun hline => isProductionLine_strip_iff.1 hline h]
    rfl
  · next h =>
    rw [List.filter_cons_of_pos (isProductionLine_strip_iff.2 h), List.mapM_cons, reading?_strip]
    rfl

theorem Respaced.readings?_eq {ts ts' : List Text} (h : Respaced ts ts') :
    readings? ts' = readings? ts := by
  induction h with
  | nil => rfl
  | @line t t' ts ts' h _ ih =>
    have hremark : IsRemark t' ↔ IsRemark t := by rw [IsRemark, h.unblank_eq, IsRemark]
    simp only [readings?_cons, hremark, reading?_of_spaced h, ih]
  | remark h _ ih => rw [readings?_cons, if_pos h, ih]

theorem readLines_bare (lines : List Text) :
    (readLines lines).toOption.map (·.map bare) = lines.mapM reading? := by
  induction lines with
  | nil => rfl
  | cons line lines ih =>
    rw [List.mapM_cons, ← ih, readLines, reading?]
    cases readLine line with
    | error e => rfl
    | ok pair =>
      cases readLines lines with
      | error e => rfl
      | ok pairs => rfl

/-- The grammar of a source depends on what counts of it alone. -/
theorem ofLines_eq_ok_iff {source : List Text} {g : Grammar} :
    ofLines source = .ok g ↔ ∃ pairs, readings? source = some pairs ∧ load pairs = .ok g := by
  rw [readings?, ← readLines_bare, ofLines]
  cases readLines (productionLines source) with
  | error e => exact iff_of_false (fun h => by cases h) fun ⟨_, h, _⟩ => by cases h
  | ok pairs =>
    constructor
    · intro hload
      exact ⟨pairs.map bare, rfl, load_map_bare.2 hload⟩
    · rintro ⟨_, ⟨⟩, hload⟩
      exact load_map_bare.1 hload

/-- Blanks, empty lines and comments do not matter. A source that is read
is read as the same grammar, with its start symbol and its productions in
their order, when blanks are put into its lines, anywhere but inside an
arrow, and empty lines and comments between them; and a source that is
not read is not read then. -/
theorem spacing_irrelevant {source source' : List Text} (h : Respaced source source') (g : Grammar) :
    ofLines source' = .ok g ↔ ofLines source = .ok g := by
  rw [ofLines_eq_ok_iff, ofLines_eq_ok_iff, h.readings?_eq]

/-- Blanks of several kinds, a line end among them, around an arrow that
stays whole and between signs that are none, with an empty line and a
comment in between. -/
theorem spacing_irrelevant_of_wide_blanks :
    Respaced ["S->A|", "A=-/>"] [" S\u3000->\u00a0A\u2028|\t", "\u2003", "\t# B->", "A= -\n/>"] ∧
      ∃ g, ofLines ["S->A|", "A=-/>"] = .ok g ∧
        ofLines [" S\u3000->\u00a0A\u2028|\t", "\u2003", "\t# B->", "A= -\n/>"] = .ok g := by
  have h : Respaced ["S->A|", "A=-/>"]
      [" S\u3000->\u00a0A\u2028|\t", "\u2003", "\t# B->", "A= -\n/>"] := by
    refine .line ?_ (.remark ?_ (.remark ?_ (.line ?_ .nil))) <;> decide
  obtain ⟨g, hg⟩ : ∃ g, ofLines ["S->A|", "A=-/>"] = .ok g := ⟨_, rfl⟩
  exact ⟨h, g, hg, (spacing_irrelevant h g).2 hg⟩

end Grammar

end Predictive
