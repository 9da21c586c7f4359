import Predictive.Proofs.Machine.Phase

/-!
# The allowance is enough

`ParsingTable.allowance` bounds the runs of any table over any input:
a run that comes to an end does so within the allowance
(`lt_allowance`). So a parse is cut short only when no allowance would
do, and accepts exactly when the machine can come to accept
(`isAccepted_parse_iff`, `run_eq_parse`).

A run is a sequence of phases of expansions with a symbol consumed
between two of them (`Config.Reaches.phase`). Each phase is bounded by
the stack it finds and adds a bounded number of symbols to it, and the
two bounds are summed over the unread input (`Config.Reaches.bound`).
-/

namespace Predictive

namespace ParsingTable

variable {t : ParsingTable} {A a : Symbol} {p : Production}

theorem le_foldl_max {l : List Nat} {m n : Nat} (h : n ≤ m ∨ n ∈ l) : n ≤ l.foldl max m := by
  induction l generalizing m with
  | nil => exact h.resolve_right List.not_mem_nil
  | cons x l ih =>
    refine ih ?_
    rcases h with h | h
    · exact Or.inl (Nat.le_trans h (Nat.le_max_left m x))
    · rcases List.mem_cons.1 h with rfl | h
      · exact Or.inl (Nat.le_max_right m n)
      · exact Or.inr h

theorem one_le_width (t : ParsingTable) : 1 ≤ t.width :=
  le_foldl_max (Or.inl (Nat.le_refl 1))

/-- The rows in which something was written. -/
def rowSet (t : ParsingTable) : Finset Symbol := (t.keys.map Place.row).toFinset

theorem card_rowSet_le (t : ParsingTable) : t.rowSet.card ≤ t.rows.length + t.size := by
  have h : t.rowSet.card ≤ (t.keys.map Place.row).length := List.toFinset_card_le _
  have hsize : (t.keys.map Place.row).length = t.size := by
    rw [List.length_map, keys, OrderedMap.keys, List.length_map, size, OrderedMap.size]
  omega

theorem exists_cell (h : t.get? A a = some p) :
    ∃ c, ((⟨A, a⟩ : Place), c) ∈ t.cells.entries ∧ c.winner = p := by
  obtain ⟨c, hc, hp⟩ := Option.map_eq_some_iff.1 h
  exact ⟨c, OrderedMap.get?_eq_some.1 hc, hp⟩

theorem mem_rowSet (h : t.get? A a = some p) : A ∈ t.rowSet := by
  obtain ⟨c, hc, -⟩ := exists_cell h
  have hkey : (⟨A, a⟩ : Place) ∈ t.keys := List.mem_map.2 ⟨_, hc, rfl⟩
  exact List.mem_toFinset.2 (List.mem_map.2 ⟨_, hkey, rfl⟩)

theorem length_expansion_le (h : t.get? A a = some p) : p.expansion.length ≤ t.width := by
  obtain ⟨c, hc, rfl⟩ := exists_cell h
  have hentry : ((⟨A, a⟩ : Place), c.winner) ∈ t.entries := List.mem_map.2 ⟨_, hc, rfl⟩
  have hrhs : c.winner.rhs.length ≤ t.width :=
    le_foldl_max (Or.inr (List.mem_map.2 ⟨_, hentry, rfl⟩))
  rw [Production.expansion]
  split
  · exact Nat.zero_le _
  · exact hrhs

end ParsingTable

theorem Expands.bound_rowSet {t : ParsingTable} {a : Symbol} {k : Nat} {σ τ : List Symbol}
    (h : Expands t a k σ τ) (hτ : Stuck t a τ) :
    k ≤ σ.length * (t.width + 1) ^ t.rowSet.card ∧
      τ.length ≤ σ.length + t.rowSet.card * t.width := by
  refine bounded (fun _ _ => ParsingTable.length_expansion_le) _ t.rowSet k σ τ rfl h hτ ?_
  intro j X δ _ _ hsome
  obtain ⟨p, hp⟩ := Option.isSome_iff_exists.1 hsome
  exact ParsingTable.mem_rowSet hp

namespace Config

variable {t : ParsingTable} {c c' : Config} {k : Nat}

/-- A run that ends begins with a phase of expansions, and ends with it
or goes on with a symbol consumed. -/
theorem Reaches.phase (h : Reaches t k c c') (hend : c'.next? t = none) :
    ∃ e τ, Expands t c.lookahead e c.stack τ ∧ Stuck t c.lookahead τ ∧
      (k = e ∨ ∃ n c₁, k = e + 1 + n ∧ c₁.unread.length + 1 = c.unread.length ∧
        c₁.stack.length ≤ τ.length ∧ Reaches t n c₁ c') := by
  induction h with
  | refl c =>
    refine ⟨0, c.stack, .refl _, ?_, Or.inl rfl⟩
    intro A hA hn
    obtain ⟨rest, hstack⟩ := List.head?_eq_some_iff.1 hA
    cases hp : t.get? A c.lookahead with
    | none => rfl
    | some p => rw [next?_expand hstack hn hp] at hend; cases hend
  | @step k c c₁ c' hnext hrest ih =>
    rcases next?_cases hnext with
      ⟨s, rest, unread, hstack, hunread, -, hs, rfl⟩ | ⟨A, rest, p, hstack, hA, hp, rfl⟩
    · refine ⟨0, c.stack, .refl _, ?_, Or.inr ⟨k, _, by omega, ?_, ?_, hrest⟩⟩
      · intro A hA hn
        rw [hstack] at hA
        obtain rfl := Option.some.inj hA
        rw [hs] at hn
        cases hn
      · rw [hunread]
        rfl
      · rw [hstack]
        exact Nat.le_succ _
    · obtain ⟨e, τ, he, hτ, hcont⟩ := ih hend
      refine ⟨e + 1, τ, hstack ▸ .step hA hp he, hτ, ?_⟩
      rcases hcont with rfl | ⟨n, c₁, rfl, hlen, hle, hn⟩
      · exact Or.inl rfl
      · exact Or.inr ⟨n, c₁, by omega, hlen, hle, hn⟩

/-- One phase before the others: `h` symbols on the stack become `s`, at
most `d` more, and `u` symbols stay unread. -/
theorem add_phase_le {h s d e n u W : Nat} (he : e ≤ h * W) (hs : s ≤ h + d)
    (hn : n ≤ (u + 1) * ((s + u * d) * W) + u) :
    e + 1 + n ≤ (u + 2) * ((h + (u + 1) * d) * W) + (u + 1) := by
  have hgrow : s + u * d ≤ h + (u + 1) * d := by
    rw [Nat.succ_mul]
    omega
  have hrest : (u + 1) * ((s + u * d) * W) ≤ (u + 1) * ((h + (u + 1) * d) * W) :=
    Nat.mul_le_mul_left _ (Nat.mul_le_mul_right _ hgrow)
  have hfirst : h * W ≤ (h + (u + 1) * d) * W :=
    Nat.mul_le_mul_right _ (Nat.le_add_right h _)
  rw [Nat.succ_mul (u + 1)]
  omega

theorem Reaches.bound (h : Reaches t k c c') (hend : c'.next? t = none) :
    k ≤ (c.unread.length + 1) *
        ((c.stack.length + c.unread.length * (t.rowSet.card * t.width)) *
          (t.width + 1) ^ t.rowSet.card) + c.unread.length := by
  generalize hu : c.unread.length = u
  induction u generalizing c k with
  | zero =>
    obtain ⟨e, τ, he, hτ, hcont⟩ := h.phase hend
    obtain ⟨hsteps, -⟩ := he.bound_rowSet hτ
    rcases hcont with rfl | ⟨n, c₁, -, hlen, -⟩
    · rwa [Nat.zero_mul, Nat.add_zero, Nat.add_zero, Nat.one_mul]
    · omega
  | succ u ih =>
    obtain ⟨e, τ, he, hτ, hcont⟩ := h.phase hend
    obtain ⟨hsteps, hgrow⟩ := he.bound_rowSet hτ
    rcases hcont with rfl | ⟨n, c₁, rfl, hlen, hle, hn⟩
    · refine Nat.le_trans ?_
        (add_phase_le (n := 0) hsteps (Nat.le_add_right _ (t.rowSet.card * t.width)) (Nat.zero_le _))
      omega
    · exact add_phase_le hsteps (Nat.le_trans hle hgrow) (ih hn (by omega))

theorem Reaches.lt_allowance {start : Symbol} {input : List Symbol}
    (h : Reaches t k (initial start input) c') (hend : c'.next? t = none) :
    k < t.allowance input.length := by
  have hbound := h.bound hend
  have hrows := t.card_rowSet_le
  have hwidth := t.one_le_width
  rw [ParsingTable.allowance]
  simp only [initial, List.length_cons, List.length_nil] at hbound
  generalize t.rowSet.card = m at hbound hrows
  generalize t.rows.length + t.size = r at hrows ⊢
  generalize t.width = w at hbound hwidth ⊢
  generalize input.length = u at hbound ⊢
  -- the factor by which the allowance is the larger pays for the symbols consumed
  have hpow : 2 * (w + 1) ^ m ≤ (w + 1) ^ (r + 1) := by
    have hle : (w + 1) ^ m ≤ (w + 1) ^ r := Nat.pow_le_pow_right (Nat.succ_pos w) hrows
    rw [Nat.pow_succ, Nat.mul_comm]
    exact Nat.mul_le_mul hle (Nat.succ_le_succ hwidth)
  have hone : 1 ≤ (w + 1) ^ m := Nat.one_le_pow _ _ (Nat.succ_pos w)
  have hstack : 2 + u * (m * w) ≤ 2 + (u + 1) * r * w := by
    rw [Nat.mul_assoc]
    exact Nat.add_le_add_left
      (Nat.mul_le_mul (Nat.le_succ u) (Nat.mul_le_mul_right w hrows)) 2
  have hphase : (2 + u * (m * w)) * (w + 1) ^ m + 1 ≤
      (2 + (u + 1) * r * w) * (2 * (w + 1) ^ m) := by
    have := Nat.mul_le_mul hstack (Nat.le_refl (2 * (w + 1) ^ m))
    have hpos : 1 ≤ (2 + u * (m * w)) * (w + 1) ^ m := Nat.mul_pos (by omega) hone
    rw [Nat.mul_left_comm] at this
    omega
  calc k ≤ (u + 1) * ((2 + u * (m * w)) * (w + 1) ^ m) + u := hbound
    _ < (u + 1) * ((2 + u * (m * w)) * (w + 1) ^ m + 1) := by
      rw [Nat.mul_succ]
      omega
    _ ≤ (u + 2) * ((2 + (u + 1) * r * w) * (2 * (w + 1) ^ m)) :=
      Nat.mul_le_mul (Nat.le_succ _) hphase
    _ ≤ (u + 2) * ((2 + (u + 1) * r * w) * (w + 1) ^ (r + 1)) :=
      Nat.mul_le_mul_left _ (Nat.mul_le_mul_left _ hpow)
    _ = (u + 2) * (2 + (u + 1) * r * w) * (w + 1) ^ (r + 1) := (Nat.mul_assoc ..).symm

end Config

namespace ParsingTable

variable {t : ParsingTable} {start : Symbol} {text : Text}

/-- A parse accepts exactly when the machine can come to accept in any
number of steps. -/
theorem isAccepted_parse_iff :
    (t.parse start text).isAccepted ↔ ∃ k c,
      Config.Reaches t k (.initial start (symbolsOf (Text.unblank text))) c ∧
        c.act t = .accept := by
  rw [parse, Config.isAccepted_run_iff]
  constructor
  · rintro ⟨k, c, -, hreach, haccept⟩
    exact ⟨k, c, hreach, haccept⟩
  · rintro ⟨k, c, hreach, haccept⟩
    exact ⟨k, c, hreach.lt_allowance (Config.next?_of_accept haccept), hreach, haccept⟩

/-- A run with any other allowance is the parse, or was cut short. -/
theorem run_eq_parse {n : Nat}
    (h : ((Config.initial start (symbolsOf (Text.unblank text))).run t n).ending ≠ .unfinished) :
    (Config.initial start (symbolsOf (Text.unblank text))).run t n = t.parse start text := by
  obtain ⟨k, c, hk, hreach, hend⟩ := Config.reaches_of_ended h
  rw [parse, hreach.run_eq hend hk, hreach.run_eq hend (hreach.lt_allowance hend)]

end ParsingTable

end Predictive
