import Predictive.Machine.Basic

/-!
# Steps and runs of the machine

What one step can do, said once: `next?_cases` lists the two steps that
do not end a run with all that makes them possible, and `next?_consume`
and `next?_expand` are the converses. `Reaches` counts such steps.

A run is read off these: its trace shows the configurations to which the
machine comes (`exists_reaches_of_row`), and it accepts exactly when
one of them accepts with a step to spare (`isAccepted_run_iff`). Once a
run may end, allowing more steps changes nothing (`Reaches.exists_run`).
It must end where each step lowers some number (`exists_reaches_of_lt`).
-/

namespace Predictive

namespace Config

variable {t : ParsingTable} {c c' c'' : Config} {k n : Nat}

/-! ## One step -/

theorem act_cons {top : Symbol} {rest : List Symbol} (h : c.stack = top :: rest) :
    c.act t = c.actOn t top := by
  rw [act, h]

theorem act_eq_accept_iff :
    c.act t = .accept ↔ (∃ rest, c.stack = .endMarker :: rest) ∧ c.unread = [] := by
  cases hstack : c.stack with
  | nil => simp [act, hstack]
  | cons top rest =>
    rw [act_cons hstack, actOn]
    by_cases htop : top = .endMarker ∧ c.unread = []
    · rw [if_pos htop]
      exact ⟨fun _ => ⟨⟨rest, by rw [htop.1]⟩, htop.2⟩, fun _ => rfl⟩
    · rw [if_neg htop]
      refine ⟨fun h => ?_, fun ⟨⟨_, h⟩, hu⟩ => absurd ⟨(List.cons.inj h).1, hu⟩ htop⟩
      split at h
      · split at h <;> cases h
      · split at h <;> cases h

theorem actOn_eq_consume {top s : Symbol} (h : c.actOn t top = .consume s) :
    s = top ∧ top ≠ .endMarker ∧ top.isNonterminal = false ∧ top = c.lookahead := by
  rw [actOn] at h
  split at h
  · cases h
  · split at h
    · next hterm =>
      split at h
      · next hlook => exact ⟨(Action.consume.inj h).symm, hterm.1, hterm.2, hlook⟩
      · cases h
    · split at h <;> cases h

theorem actOn_eq_expand {top : Symbol} {p : Production} (h : c.actOn t top = .expand p) :
    top.isNonterminal ∧ t.get? top c.lookahead = some p := by
  rw [actOn] at h
  split at h
  · cases h
  · split at h
    · split at h <;> cases h
    · split at h
      · next q hq =>
        obtain rfl := Action.expand.inj h
        rw [production?] at hq
        split at hq
        · next hn => exact ⟨hn, hq⟩
        · cases hq
      · cases h

theorem actOn_eq_reject {top : Symbol} {why : Rejection} (h : c.actOn t top = .reject why) :
    why = .unexpectedTerminal top c.lookahead ∨ why = .noTableEntry top c.lookahead := by
  rw [actOn] at h
  split at h
  · cases h
  · split at h
    · split at h
      · cases h
      · exact Or.inl (Action.reject.inj h).symm
    · split at h
      · cases h
      · exact Or.inr (Action.reject.inj h).symm

theorem actOn_ne_exhausted {top : Symbol} : c.actOn t top ≠ .reject .stackExhausted := by
  intro h
  rcases actOn_eq_reject h with hwhy | hwhy <;> cases hwhy

/-- What is consumed is not the end marker, so it was there to be
read. -/
theorem exists_unread {top : Symbol} (htop : top ≠ .endMarker) (hlook : top = c.lookahead) :
    ∃ unread, c.unread = top :: unread := by
  rw [lookahead] at hlook
  cases hunread : c.unread with
  | nil =>
    rw [hunread] at hlook
    exact absurd hlook htop
  | cons a unread =>
    rw [hunread] at hlook
    exact ⟨unread, by rw [hlook]; rfl⟩

/-- All that a step which does not end the run can do: it consumes a
terminal that is next, or expands a nonterminal by the production in
its cell. -/
theorem next?_cases (h : c.next? t = some c') :
    (∃ s rest unread, c.stack = s :: rest ∧ c.unread = s :: unread ∧ s ≠ .endMarker ∧
      s.isNonterminal = false ∧ c' = ⟨rest, c.position + 1, unread, .consume s :: c.moves⟩) ∨
    ∃ A rest p, c.stack = A :: rest ∧ A.isNonterminal ∧ t.get? A c.lookahead = some p ∧
      c' = ⟨p.expansion ++ rest, c.position, c.unread, .expand A p :: c.moves⟩ := by
  cases hstack : c.stack with
  | nil => simp [next?, act, hstack] at h
  | cons top rest =>
    rw [next?, act_cons hstack] at h
    cases hact : c.actOn t top with
    | accept => simp [hact] at h
    | reject why => simp [hact] at h
    | consume s =>
      obtain ⟨rfl, hend, hn, hlook⟩ := actOn_eq_consume hact
      obtain ⟨unread, hunread⟩ := exists_unread hend hlook
      refine Or.inl ⟨s, rest, unread, rfl, hunread, hend, hn, ?_⟩
      simpa [hact, after, hstack, hunread] using h.symm
    | expand p =>
      obtain ⟨hn, hp⟩ := actOn_eq_expand hact
      refine Or.inr ⟨top, rest, p, rfl, hn, hp, ?_⟩
      simpa [hact, after, hstack] using h.symm

theorem next?_consume {s : Symbol} {rest unread : List Symbol} (hstack : c.stack = s :: rest)
    (hunread : c.unread = s :: unread) (hs : s ≠ .endMarker) (hn : s.isNonterminal = false) :
    c.next? t = some ⟨rest, c.position + 1, unread, .consume s :: c.moves⟩ := by
  have hlook : s = c.lookahead := by rw [lookahead, hunread]; rfl
  rw [next?, act_cons hstack, actOn, if_neg (fun h => hs h.1), if_pos ⟨hs, hn⟩, if_pos hlook]
  simp [after, hstack, hunread]

theorem next?_expand {A : Symbol} {rest : List Symbol} {p : Production}
    (hstack : c.stack = A :: rest) (hA : A.isNonterminal) (hp : t.get? A c.lookahead = some p) :
    c.next? t = some ⟨p.expansion ++ rest, c.position, c.unread, .expand A p :: c.moves⟩ := by
  have hend : A ≠ .endMarker := by rintro rfl; simp at hA
  rw [next?, act_cons hstack, actOn, if_neg (fun h => hend h.1),
    if_neg (fun h => by rw [hA] at h; cases h.2), production?, if_pos hA, hp]
  simp [after, hstack]

theorem next?_of_accept (h : c.act t = .accept) : c.next? t = none := by
  rw [next?, h]

/-! ## Many steps -/

/-- The machine comes from one configuration to another in a number of
steps. -/
inductive Reaches (t : ParsingTable) : Nat → Config → Config → Prop where
  | refl (c : Config) : Reaches t 0 c c
  | step {n : Nat} {c c' c'' : Config} (h : c.next? t = some c') (rest : Reaches t n c' c'') :
      Reaches t (n + 1) c c''

theorem Reaches.snoc (h : Reaches t k c c') (hnext : c'.next? t = some c'') :
    Reaches t (k + 1) c c'' := by
  induction h with
  | refl c => exact .step hnext (.refl c'')
  | step h₁ _ ih => exact .step h₁ (ih hnext)

/-! ## Runs -/

/-- The row of a trace that shows a configuration. -/
def shown (t : ParsingTable) (c : Config) : Step := ⟨c.stack, c.unread, c.act t⟩

theorem run_congr {u : ParsingTable} (h : ∀ A a, t.get? A a = u.get? A a) (c : Config) (n : Nat) :
    c.run t n = c.run u n := by
  have hact : ∀ (c : Config) top, c.actOn t top = c.actOn u top := by
    intro c top
    rw [actOn, actOn, production?, production?, h]
  induction n generalizing c with
  | zero => rfl
  | succ n ih =>
    rw [run, run]
    cases c.stack with
    | nil => rfl
    | cons top rest =>
      simp only [hact]
      cases c.actOn u top <;> simp only [ih]

theorem run_succ_of_next (h : c.next? t = some c') (n : Nat) :
    c.run t (n + 1) = (c'.run t n).cons (c.shown t) := by
  cases hstack : c.stack with
  | nil => simp [next?, act, hstack] at h
  | cons top rest =>
    rw [next?, act_cons hstack] at h
    rw [run, shown, act_cons hstack]
    simp only [hstack]
    cases hact : c.actOn t top with
    | accept => simp [hact] at h
    | reject why => simp [hact] at h
    | consume s =>
      rw [hact] at h
      obtain rfl := Option.some.inj h
      rfl
    | expand p =>
      rw [hact] at h
      obtain rfl := Option.some.inj h
      rfl

/-- A run of a configuration that does not go on ends there, however
many steps it is allowed. -/
theorem run_succ_of_ended (h : c.next? t = none) :
    ∃ steps ending, (steps = [] ∨ steps = [c.shown t]) ∧ ending ≠ .unfinished ∧
      (ending = .accepted ↔ c.act t = .accept) ∧ ∀ n, c.run t (n + 1) = ⟨steps, c, ending⟩ := by
  cases hstack : c.stack with
  | nil =>
    refine ⟨[], .rejected .stackExhausted, Or.inl rfl, by simp, by simp [act, hstack],
      fun n => ?_⟩
    rw [run]
    simp only [hstack]
  | cons top rest =>
    rw [next?, act_cons hstack] at h
    rw [shown, act_cons hstack]
    cases hact : c.actOn t top with
    | accept =>
      refine ⟨[⟨c.stack, c.unread, .accept⟩], .accepted, Or.inr rfl, by simp, by simp,
        fun n => ?_⟩
      rw [run]
      simp only [hstack, hact]
    | reject why =>
      refine ⟨[⟨c.stack, c.unread, .reject why⟩], .rejected why, Or.inr rfl, by simp, by simp,
        fun n => ?_⟩
      rw [run]
      simp only [hstack, hact]
    | consume s => simp [hact] at h
    | expand p => simp [hact] at h

/-- A run that was not cut short came to where the machine goes no
further. -/
theorem reaches_of_ended (h : (c.run t n).ending ≠ .unfinished) :
    ∃ k c', k < n ∧ Reaches t k c c' ∧ c'.next? t = none := by
  induction n generalizing c with
  | zero => exact absurd rfl h
  | succ n ih =>
    cases hnext : c.next? t with
    | none => exact ⟨0, c, Nat.succ_pos n, .refl c, hnext⟩
    | some c₁ =>
      rw [run_succ_of_next hnext] at h
      obtain ⟨k, c', hk, hreach, hend⟩ := ih h
      exact ⟨k + 1, c', Nat.succ_lt_succ hk, .step hnext hreach, hend⟩

theorem Reaches.length_steps (h : Reaches t k c c') : (c.run t k).steps.length = k := by
  induction h with
  | refl c => rfl
  | step hnext _ ih =>
    rw [run_succ_of_next hnext]
    exact congrArg Nat.succ ih

/-- A run begins with the steps that were made, and goes on like the run
of where they led. -/
theorem Reaches.run_add (h : Reaches t k c c') (n : Nat) :
    c.run t (k + n) =
      { c'.run t n with steps := (c.run t k).steps ++ (c'.run t n).steps } := by
  induction h with
  | refl c =>
    rw [Nat.zero_add]
    rfl
  | step hnext _ ih =>
    rw [Nat.succ_add, run_succ_of_next hnext, run_succ_of_next hnext, ih]
    rfl

/-- Every row of a trace shows a configuration to which the machine came
by the steps of the rows before it. -/
theorem exists_reaches_of_row {before after : List Step} {step : Step}
    (h : (c.run t n).steps = before ++ step :: after) :
    ∃ c', Reaches t before.length c c' ∧ step = c'.shown t ∧
      before = (c.run t before.length).steps := by
  induction n generalizing c before with
  | zero => exact absurd h.symm (List.append_ne_nil_of_right_ne_nil _ (List.cons_ne_nil _ _))
  | succ n ih =>
    cases hnext : c.next? t with
    | none =>
      obtain ⟨steps, ending, hsteps, -, -, hrun⟩ := run_succ_of_ended hnext
      rw [hrun] at h
      cases before with
      | nil =>
        rcases hsteps with rfl | rfl
        · cases h
        · exact ⟨c, .refl c, (List.cons.inj h).1.symm, rfl⟩
      | cons s before => rcases hsteps with rfl | rfl <;> simp at h
    | some c₁ =>
      rw [run_succ_of_next hnext] at h
      cases before with
      | nil => exact ⟨c, .refl c, (List.cons.inj h).1.symm, rfl⟩
      | cons s before =>
        obtain ⟨rfl, hrest⟩ := List.cons.inj h
        obtain ⟨c', hreach, hstep, hbefore⟩ := ih hrest
        refine ⟨c', .step hnext hreach, hstep, ?_⟩
        rw [List.length_cons, run_succ_of_next hnext]
        exact congrArg (List.cons _) hbefore

/-- A run that is allowed to come to where the machine goes no further
ends there, whatever more it is allowed. -/
theorem Reaches.exists_run (h : Reaches t k c c') (hend : c'.next? t = none) :
    ∃ steps ending, steps.length ≤ k + 1 ∧ ending ≠ .unfinished ∧
      (ending = .accepted ↔ c'.act t = .accept) ∧ ∀ n, k < n → c.run t n = ⟨steps, c', ending⟩ := by
  obtain ⟨steps, ending, hsteps, hending, haccept, hrun⟩ := run_succ_of_ended hend
  refine ⟨(c.run t k).steps ++ steps, ending, ?_, hending, haccept, fun n hn => ?_⟩
  · have hlength : steps.length ≤ 1 := by rcases hsteps with rfl | rfl <;> simp
    rw [List.length_append, h.length_steps]
    omega
  · obtain ⟨m, rfl⟩ := Nat.exists_eq_add_of_lt hn
    rw [Nat.add_assoc, h.run_add, hrun]

theorem Reaches.last_run (h : Reaches t k c c') (hend : c'.next? t = none) (hn : k < n) :
    (c.run t n).last = c' ∧ ((c.run t n).isAccepted ↔ c'.act t = .accept) := by
  obtain ⟨steps, ending, -, -, haccept, hrun⟩ := h.exists_run hend
  rw [hrun n hn]
  exact ⟨rfl, beq_iff_eq.trans haccept⟩

/-- Once a run may end, allowing more steps changes nothing. -/
theorem Reaches.run_eq (h : Reaches t k c c') (hend : c'.next? t = none) (hn : k < n) :
    c.run t n = c.run t (k + 1) := by
  obtain ⟨steps, ending, -, -, -, hrun⟩ := h.exists_run hend
  rw [hrun n hn, hrun (k + 1) (Nat.lt_succ_self k)]

theorem Reaches.eq_of_ended {j : Nat} (h : Reaches t k c c') (hend : c'.next? t = none)
    (h' : Reaches t j c c'') (hend' : c''.next? t = none) : c' = c'' := by
  rw [← (h.last_run hend (Nat.lt_succ_of_le (Nat.le_add_right k j))).1,
    ← (h'.last_run hend' (Nat.lt_succ_of_le (Nat.le_add_left j k))).1]

/-- A run shows the steps that do not end it, and the one that does. -/
theorem Reaches.length_steps_run (h : Reaches t k c c') (hend : c'.next? t = none) (hn : k < n) :
    (c.run t n).ending ≠ .unfinished ∧ (c.run t n).steps.length ≤ k + 1 := by
  obtain ⟨steps, ending, hlength, hending, -, hrun⟩ := h.exists_run hend
  rw [hrun n hn]
  exact ⟨hending, hlength⟩

/-- Where every step keeps an invariant and lowers a number, the machine
comes to where it goes no further. -/
theorem exists_reaches_of_lt {I : Config → Prop} {size : Config → Nat}
    (hstep : ∀ c c', I c → c.next? t = some c' → I c' ∧ size c' < size c) (hc : I c) :
    ∃ k c', Reaches t k c c' ∧ c'.next? t = none ∧ I c' ∧ k + size c' ≤ size c := by
  generalize hsize : size c = m
  induction m using Nat.strongRecOn generalizing c with
  | ind m ih =>
    cases hnext : c.next? t with
    | none => exact ⟨0, c, .refl c, hnext, hc, by omega⟩
    | some c₁ =>
      obtain ⟨hc₁, hlt⟩ := hstep c c₁ hc hnext
      obtain ⟨k, c', hreach, hend, hc', hk⟩ := ih (size c₁) (hsize ▸ hlt) hc₁ rfl
      exact ⟨k + 1, c', .step hnext hreach, hend, hc', by omega⟩

/-- A run accepts exactly when the machine comes to a configuration
that accepts, with a step to spare. -/
theorem isAccepted_run_iff :
    (c.run t n).isAccepted ↔ ∃ k c', k < n ∧ Reaches t k c c' ∧ c'.act t = .accept := by
  constructor
  · intro h
    have hended : (c.run t n).ending ≠ .unfinished := by
      intro hu
      simp [Run.isAccepted, hu] at h
    obtain ⟨k, c', hk, hreach, hend⟩ := reaches_of_ended hended
    exact ⟨k, c', hk, hreach, (hreach.last_run hend hk).2.1 h⟩
  · rintro ⟨k, c', hk, hreach, haccept⟩
    exact (hreach.last_run (next?_of_accept haccept) hk).2.2 haccept

end Config

end Predictive
