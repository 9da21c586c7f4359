import Mathlib.Data.List.TakeWhile
import Predictive.Proofs.Text.Lines
import Predictive.Text.Encoder

/-!
# What can be encoded

A text that is put together can be encoded when its parts can, and what
the program writes of its own always can: literals, numbers, and the
blanks that fill a field. So nothing but a text from outside is ever
refused.

An encoder can stand for any property of code points (`ofProperty`), so
to say what encoders take is to say what a text is made of.
-/

namespace Predictive

namespace Encoder

variable {e : Encoder} {t t' : Text}

theorem refusal?_eq_none_iff : e.refusal? t = none ↔ e.Takes t := by
  rw [Takes, ← List.dropWhile_eq_nil_iff, refusal?]
  split <;> simp [*]

theorem exists_refusal? (h : ¬ e.Takes t) : ∃ why, e.refusal? t = some why :=
  Option.ne_none_iff_exists'.1 (mt refusal?_eq_none_iff.1 h)

theorem takes_lenient (t : Text) : lenient.Takes t := fun _ _ => rfl

theorem Takes.mono (h : e.Takes t) (hsub : t' ⊆ t) : e.Takes t' := fun c hc => h c (hsub hc)

/-! ## Texts put together -/

@[simp] theorem takes_nil : e.Takes [] := List.forall_mem_nil _

@[simp] theorem takes_cons {c : CodePoint} : e.Takes (c :: t) ↔ e.takes c = true ∧ e.Takes t :=
  List.forall_mem_cons

@[simp] theorem takes_append : e.Takes (t ++ t') ↔ e.Takes t ∧ e.Takes t' :=
  List.forall_mem_append

@[simp] theorem takes_chars (l : List Char) : e.Takes (l.map .char) :=
  List.forall_mem_map.2 fun c _ => e.takes_char c

@[simp] theorem takes_ofString (s : String) : e.Takes (Text.ofString s) := takes_chars s.toList

@[simp] theorem takes_ofNat (n : Nat) : e.Takes (Text.ofNat n) := takes_chars _

@[simp] theorem takes_replicate (n : Nat) (c : Char) : e.Takes (List.replicate n (.char c)) := by
  intro d hd
  rw [List.eq_of_mem_replicate hd]
  exact e.takes_char c

@[simp] theorem takes_padRight {width : Nat} : e.Takes (Text.padRight width t) ↔ e.Takes t := by
  rw [Text.padRight, List.rightpad, takes_append, and_iff_left (takes_replicate _ _)]

@[simp] theorem takes_padLeft {width : Nat} : e.Takes (Text.padLeft width t) ↔ e.Takes t := by
  rw [Text.padLeft, List.leftpad, takes_append, and_iff_right (takes_replicate _ _)]

theorem takes_flatMap {α : Type} {f : α → Text} {l : List α} :
    e.Takes (l.flatMap f) ↔ ∀ a ∈ l, e.Takes (f a) := by
  induction l with
  | nil => simp
  | cons a l ih => rw [List.flatMap_cons, takes_append, ih, List.forall_mem_cons]

theorem takes_join {sep : Text} {parts : List Text} (hsep : e.Takes sep) :
    e.Takes (Text.join sep parts) ↔ ∀ part ∈ parts, e.Takes part := by
  induction parts with
  | nil => simp [Text.join]
  | cons part parts ih =>
    cases parts with
    | nil => rw [Text.join_singleton, List.forall_mem_singleton]
    | cons part' parts =>
      rw [Text.join_cons_cons, takes_append, takes_append, and_iff_left hsep, ih]
      exact List.forall_mem_cons.symm

/-! ## Code points with a property -/

/-- The encoder that takes the characters and the code points with a
property. -/
noncomputable def ofProperty (P : CodePoint → Prop) : Encoder :=
  ⟨fun c => @decide ((∃ x : Char, c = x) ∨ P c) (Classical.propDecidable _),
    fun x => @decide_eq_true _ (Classical.propDecidable _) (Or.inl ⟨x, rfl⟩)⟩

theorem takes_ofProperty {P : CodePoint → Prop} :
    (ofProperty P).Takes t ↔ ∀ c ∈ t, (∃ x : Char, c = x) ∨ P c := by
  simp [Takes, ofProperty]

end Encoder

end Predictive
