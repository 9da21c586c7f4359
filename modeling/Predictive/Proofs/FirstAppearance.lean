import Mathlib.Data.List.Induction
import Mathlib.Data.List.Nodup

/-!
# Order of first appearance

`l.eraseDups` is the list of the members of `l`, each once, in the order
in which they first appear. It is what a list comes to that is extended
by each member in turn unless it holds it already (`eraseDups_concat`):
the keys of a map in the order in which they were first written, and the
entries of a log in which only what is new is noted. In a list without
repetitions there is a second member exactly when two members differ
(`one_lt_length_iff_exists_ne`).
-/

namespace Predictive

variable {α : Type} [BEq α] [LawfulBEq α]

theorem eraseDups_concat (l : List α) (a : α) :
    (l ++ [a]).eraseDups =
      if a ∈ l.eraseDups then l.eraseDups else l.eraseDups ++ [a] := by
  rw [List.eraseDups_append]
  by_cases h : a ∈ l
  · simp [List.removeAll, h]
  · have hkept : [a].removeAll l = [a] := by simp [List.removeAll, h]
    rw [hkept, if_neg fun hmem => h (List.mem_eraseDups.1 hmem), List.eraseDups_cons]
    rfl

theorem nodup_eraseDups (l : List α) : l.eraseDups.Nodup := by
  induction l using List.reverseRecOn with
  | nil => exact List.nodup_nil
  | append_singleton l a ih =>
    rw [eraseDups_concat]
    split
    · exact ih
    · next h =>
      rw [← List.concat_eq_append]
      exact List.Nodup.concat h ih

omit [BEq α] [LawfulBEq α] in
theorem one_lt_length_iff_exists_ne {l : List α} (hl : l.Nodup) :
    1 < l.length ↔ ∃ a ∈ l, ∃ b ∈ l, a ≠ b := by
  match l with
  | [] => simp
  | [a] => simp
  | a :: b :: l =>
    have hne : a ≠ b := by
      rintro rfl
      exact (List.nodup_cons.1 hl).1 (List.mem_cons_self ..)
    exact iff_of_true (Nat.succ_lt_succ (Nat.succ_pos _)) ⟨a, by simp, b, by simp, hne⟩

end Predictive
