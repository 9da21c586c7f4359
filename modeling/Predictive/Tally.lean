/-!
# Tallies

What the elements of a list count, added up.
-/

namespace Predictive

variable {α β : Type}

def tally (count : α → Nat) (l : List α) : Nat := l.foldr (fun a n => count a + n) 0

@[simp] theorem tally_nil (count : α → Nat) : tally count [] = 0 := rfl

@[simp] theorem tally_cons (count : α → Nat) (a : α) (l : List α) :
    tally count (a :: l) = count a + tally count l := rfl

@[simp] theorem tally_append (count : α → Nat) (l l' : List α) :
    tally count (l ++ l') = tally count l + tally count l' := by
  induction l with
  | nil => simp
  | cons a l ih => simp [ih, Nat.add_assoc]

theorem tally_map (count : β → Nat) (f : α → β) (l : List α) :
    tally count (l.map f) = tally (fun a => count (f a)) l :=
  List.foldr_map ..

theorem length_flatMap_eq_tally (f : α → List β) (l : List α) :
    (l.flatMap f).length = tally (fun a => (f a).length) l := by
  induction l with
  | nil => rfl
  | cons a l ih => simp [ih]

end Predictive
