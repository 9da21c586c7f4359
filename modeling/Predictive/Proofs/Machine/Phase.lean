import Mathlib.Algebra.GroupWithZero.Nat
import Mathlib.Data.Finset.Card
import Predictive.Proofs.Machine.Run

/-!
# Phases of expansions

Between two symbols consumed the machine only expands, with the same
next symbol all the while. `Expands` is such a phase, on the stack
alone.

A phase either stays above the bottom part of its stack or first uses
up what stands on it (`Expands.split`), and it can be carried out on a
larger stack (`Expands.append`). So if a nonterminal that was expanded
comes to the top again before what it left is used up, it comes back
for ever (`not_expands_self`). In a phase that ends, therefore, what one
symbol leaves is expanded without that symbol, and the number of steps
is bounded by induction on the number of symbols that may be expanded
(`Expands.bounded`).
-/

namespace Predictive

variable {t : ParsingTable} {a Y : Symbol} {σ τ υ ρ : List Symbol} {i j k : Nat}

/-! ## Phases -/

/-- The first stack becomes the second in a number of expansions, `a`
being the next symbol. -/
inductive Expands (t : ParsingTable) (a : Symbol) : Nat → List Symbol → List Symbol → Prop where
  | refl (σ : List Symbol) : Expands t a 0 σ σ
  | step {k : Nat} {A : Symbol} {p : Production} {σ τ : List Symbol} (hA : A.isNonterminal)
      (hp : t.get? A a = some p) (rest : Expands t a k (p.expansion ++ σ) τ) :
      Expands t a (k + 1) (A :: σ) τ

/-- The top of the stack cannot be expanded. -/
def Stuck (t : ParsingTable) (a : Symbol) (σ : List Symbol) : Prop :=
  ∀ A ∈ σ.head?, A.isNonterminal → t.get? A a = none

theorem stuck_nil : Stuck t a [] := by
  intro A hA
  cases hA

theorem Stuck.of_append (h : Stuck t a (σ ++ ρ)) : Stuck t a σ := by
  cases σ with
  | nil => exact stuck_nil
  | cons A σ => exact h

namespace Expands

theorem trans (h : Expands t a i σ τ) (h' : Expands t a j τ υ) : Expands t a (i + j) σ υ := by
  induction h with
  | refl => rwa [Nat.zero_add]
  | step hA hp _ ih =>
    rw [Nat.add_right_comm]
    exact .step hA hp (ih h')

theorem append (h : Expands t a k σ τ) (ρ : List Symbol) :
    Expands t a k (σ ++ ρ) (τ ++ ρ) := by
  induction h with
  | refl => exact .refl _
  | step hA hp _ ih =>
    rw [List.append_assoc] at ih
    exact .step hA hp ih

/-- A phase stays above `ρ` or first uses up what stands on `ρ`. -/
theorem split (h : Expands t a k (σ ++ ρ) τ) :
    (∃ τ', τ = τ' ++ ρ ∧ Expands t a k σ τ') ∨
      ∃ i j, k = i + j ∧ Expands t a i σ [] ∧ Expands t a j ρ τ := by
  generalize hs : σ ++ ρ = stack at h
  induction h generalizing σ with
  | refl => exact Or.inl ⟨σ, hs.symm, .refl σ⟩
  | @step k A p rest τ hA hp h ih =>
    cases σ with
    | nil =>
      obtain rfl : ρ = A :: rest := hs
      exact Or.inr ⟨0, k + 1, by omega, .refl [], .step hA hp h⟩
    | cons B σ =>
      obtain ⟨rfl, rfl⟩ := List.cons.inj hs
      rcases ih (List.append_assoc ..) with ⟨τ', hτ, h'⟩ | ⟨i, j, hk, h₁, h₂⟩
      · exact Or.inl ⟨τ', hτ, .step hA hp h'⟩
      · exact Or.inr ⟨i + 1, j, by omega, .step hA hp h₁, h₂⟩

/-- Of two phases from one stack, the one that ends goes on from the
other. -/
theorem rest (h : Expands t a i σ τ) (h' : Expands t a k σ υ) (hυ : Stuck t a υ) :
    ∃ j, k = i + j ∧ Expands t a j τ υ := by
  induction h generalizing k with
  | refl => exact ⟨k, (Nat.zero_add k).symm, h'⟩
  | step hA hp _ ih =>
    cases h' with
    | refl => rw [hυ _ rfl hA] at hp; cases hp
    | step _ hp' h' =>
      obtain rfl := Option.some.inj (hp.symm.trans hp')
      obtain ⟨j, rfl, hj⟩ := ih h'
      exact ⟨j, by omega, hj⟩

theorem eq_zero_of_stuck (h : Expands t a k σ τ) (hσ : Stuck t a σ) : k = 0 := by
  cases h with
  | refl => rfl
  | step hA hp _ => rw [hσ _ rfl hA] at hp; cases hp

theorem eq_length (h : Expands t a i σ τ) (hτ : Stuck t a τ) (h' : Expands t a k σ υ)
    (hυ : Stuck t a υ) : i = k := by
  obtain ⟨j, rfl, hj⟩ := h.rest h' hυ
  rw [hj.eq_zero_of_stuck hτ, Nat.add_zero]

end Expands

/-- In a phase that ends, no symbol comes to the top again above what
it left. -/
theorem not_expands_self (h : Expands t a k [Y] τ) (hτ : Stuck t a τ) (δ : List Symbol) :
    ¬ Expands t a (j + 1) [Y] (Y :: δ) := by
  intro hloop
  obtain ⟨i, hk, hi⟩ := hloop.rest h hτ
  have hlt : i < k := by omega
  -- from the symbol on top again the same phase begins, and ends as soon
  have hsame : ∃ i' τ', i' ≤ i ∧ Expands t a i' [Y] τ' ∧ Stuck t a τ' := by
    rcases Expands.split (show Expands t a i ([Y] ++ δ) τ from hi) with ⟨τ', rfl, h'⟩ | ⟨i', j', rfl, h', -⟩
    · exact ⟨i, τ', Nat.le_refl i, h', hτ.of_append⟩
    · exact ⟨i', [], Nat.le_add_right i' j', h', stuck_nil⟩
  obtain ⟨i', τ', hle, h', hτ'⟩ := hsame
  have := h.eq_length hτ h' hτ'
  omega

/-! ## The length of a phase -/

/-- Every symbol that comes to be expanded in a phase from `σ` is
in `S`. -/
def Expands.Within (t : ParsingTable) (a : Symbol) (S : Finset Symbol) (σ : List Symbol) : Prop :=
  ∀ j X δ, Expands t a j σ (X :: δ) → X.isNonterminal → (t.get? X a).isSome → X ∈ S

namespace Expands

variable {S : Finset Symbol} {w : Nat}

theorem Within.of_append (h : Within t a S (σ ++ ρ)) : Within t a S σ := fun j X δ hX =>
  h j X (δ ++ ρ) (hX.append ρ)

theorem Within.of_expands (h : Within t a S σ) (hσ : Expands t a k σ τ) : Within t a S τ :=
  fun _ X δ hX => h _ X δ (hσ.trans hX)

/-- What a symbol leaves is expanded without that symbol. -/
theorem Within.erase {p : Production} (h : Within t a S [Y]) (hY : Y.isNonterminal)
    (hp : t.get? Y a = some p) (hτ : Stuck t a τ) (hend : Expands t a k p.expansion τ) :
    Within t a (S.erase Y) p.expansion := by
  have hstep : ∀ {n υ}, Expands t a n p.expansion υ → Expands t a (n + 1) [Y] υ := fun hn =>
    .step hY hp (by rwa [List.append_nil])
  intro j X δ hX hn hsome
  refine Finset.mem_erase.2 ⟨?_, h _ X δ (hstep hX) hn hsome⟩
  rintro rfl
  exact not_expands_self (hstep hend) hτ δ (hstep hX)

/-- A phase that ends and may expand `m` symbols makes at most
`(w + 1) ^ m` steps for each symbol it finds on the stack and leaves at
most `m * w` symbols more. -/
def Bounded (t : ParsingTable) (a : Symbol) (w m : Nat) : Prop :=
  ∀ (S : Finset Symbol) (k : Nat) (σ τ : List Symbol), S.card = m → Expands t a k σ τ →
    Stuck t a τ → Within t a S σ → k ≤ σ.length * (w + 1) ^ m ∧ τ.length ≤ σ.length + m * w

theorem bounded_zero : Bounded t a w 0 := by
  intro S k σ τ hm h hτ hS
  cases h with
  | refl => omega
  | step hA hp h =>
    have hmem := hS 0 _ _ (.refl _) hA (by rw [hp]; rfl)
    rw [Finset.card_eq_zero.1 hm] at hmem
    cases hmem

/-- From one symbol: one step, then a phase with a symbol less. -/
theorem Bounded.single {m : Nat} (ih : Bounded t a w m)
    (hw : ∀ A p, t.get? A a = some p → p.expansion.length ≤ w) (hm : S.card = m + 1)
    (h : Expands t a k [Y] τ) (hτ : Stuck t a τ) (hS : Within t a S [Y]) :
    k ≤ (w + 1) ^ (m + 1) ∧ τ.length ≤ 1 + (m + 1) * w := by
  cases h with
  | refl => exact ⟨Nat.zero_le _, Nat.le_add_right _ _⟩
  | step hY hp h =>
    rw [List.append_nil] at h
    have hYS : Y ∈ S := hS 0 Y [] (.refl _) hY (by rw [hp]; rfl)
    have hcard : (S.erase Y).card = m := by rw [Finset.card_erase_of_mem hYS, hm]; rfl
    obtain ⟨hsteps, hlen⟩ := ih _ _ _ _ hcard h hτ (hS.erase hY hp hτ h)
    have hβ := hw Y _ hp
    have hmul := Nat.mul_le_mul_right ((w + 1) ^ m) hβ
    have hpow : 1 ≤ (w + 1) ^ m := Nat.one_le_pow _ _ (Nat.succ_pos w)
    rw [Nat.pow_succ, Nat.mul_succ, Nat.succ_mul, Nat.mul_comm _ w]
    omega

theorem Bounded.succ {m : Nat} (ih : Bounded t a w m)
    (hw : ∀ A p, t.get? A a = some p → p.expansion.length ≤ w) : Bounded t a w (m + 1) := by
  intro S k σ τ hm h hτ hS
  induction σ generalizing k with
  | nil =>
    cases h with
    | refl => omega
  | cons Y σ ihσ =>
    have hSY : Within t a S [Y] := Within.of_append (show Within t a S ([Y] ++ σ) from hS)
    rcases split (show Expands t a k ([Y] ++ σ) τ from h) with ⟨τ', rfl, h'⟩ | ⟨i, j, rfl, h₁, h₂⟩
    · obtain ⟨hsteps, hlen⟩ := ih.single hw hm h' hτ.of_append hSY
      rw [List.length_cons, List.length_append, Nat.succ_mul]
      omega
    · obtain ⟨hsteps, -⟩ := ih.single hw hm h₁ stuck_nil hSY
      have hS' : Within t a S σ := hS.of_expands (h₁.append σ)
      obtain ⟨hsteps', hlen⟩ := ihσ j h₂ hS'
      rw [List.length_cons, Nat.succ_mul]
      omega

/-- Every phase that ends is bounded, `w` being at least the length of
what a symbol leaves. -/
theorem bounded (hw : ∀ A p, t.get? A a = some p → p.expansion.length ≤ w) (m : Nat) :
    Bounded t a w m := by
  induction m with
  | zero => exact bounded_zero
  | succ m ih => exact ih.succ hw

end Expands

end Predictive
