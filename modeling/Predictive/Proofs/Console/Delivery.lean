import Predictive.Console.Dialogue
import Predictive.Proofs.Text.Encoder

/-!
# What comes out on a terminal

An output passes a terminal when none of its prints fails there
(`Output.Passes`). Then it comes out with all its results, and the
program goes on (`Console.shown_of_passes`). Where a print fails behind
an output that passes, what came out is that output, and the program
breaks off with the refusal of the print (`Console.shown_of_refused`).
-/

namespace Predictive

variable {terminal : Encoder} {why : EncodingError}

namespace Output

variable {a b : Output} {p : Print} {rows : List Text}

/-- No print of the output fails on the terminal. -/
def Passes (terminal : Encoder) (o : Output) : Prop :=
  ∀ p ∈ o.prints, p.refusal? terminal = none

theorem passes_append : (a ++ b).Passes terminal ↔ a.Passes terminal ∧ b.Passes terminal :=
  List.forall_mem_append

theorem passes_lines (h : ∀ row ∈ rows, terminal.Takes row) : (lines rows).Passes terminal :=
  List.forall_mem_map.2 fun row hrow =>
    Encoder.refusal?_eq_none_iff.2 (Encoder.takes_append.2 ⟨h row hrow, Encoder.takes_ofString _⟩)

theorem passes_errorLines (rows : List Text) : (errorLines rows).Passes terminal :=
  List.forall_mem_map.2 fun _ _ => rfl

theorem Passes.refusal?_eq_none (h : a.Passes terminal) : a.refusal? terminal = none :=
  List.findSome?_eq_none_iff.2 h

theorem Passes.prints_takeWhile (h : a.Passes terminal) (ps : List Print) :
    (a.prints ++ ps).takeWhile (fun p => (p.refusal? terminal).isNone) =
      a.prints ++ ps.takeWhile fun p => (p.refusal? terminal).isNone :=
  List.takeWhile_append_of_pos fun p hp => by rw [h p hp]; rfl

theorem out_map_delivered (ps : List Print) :
    out ⟨ps.map (Print.delivered terminal)⟩ = out ⟨ps⟩ := by
  induction ps with
  | nil => rfl
  | cons p ps ih =>
    obtain ⟨stream, t⟩ := p
    cases stream with
    | results => exact congrArg (t ++ ·) ih
    | messages => exact ih

theorem Passes.out_delivered (h : a.Passes terminal) : (a.delivered terminal).out = a.out := by
  have hall := h.prints_takeWhile []
  rw [List.append_nil, List.takeWhile_nil, List.append_nil] at hall
  rw [delivered, out_map_delivered, hall]

theorem Passes.out_delivered_append (h : a.Passes terminal) (hb : b.prints.head? = some p)
    (hp : p.refusal? terminal = some why) : ((a ++ b).delivered terminal).out = a.out := by
  obtain ⟨ps, hps⟩ := List.head?_eq_some_iff.1 hb
  have hnone : b.prints.takeWhile (fun p => (p.refusal? terminal).isNone) = [] := by
    rw [hps, List.takeWhile_cons_of_neg]
    simp [hp]
  have hall := h.prints_takeWhile b.prints
  rw [hnone, List.append_nil] at hall
  rw [delivered, out_map_delivered]
  exact congrArg (fun ps => out ⟨ps⟩) hall

theorem Passes.refusal?_append (h : a.Passes terminal) (hb : b.prints.head? = some p)
    (hp : p.refusal? terminal = some why) : (a ++ b).refusal? terminal = some why := by
  obtain ⟨ps, hps⟩ := List.head?_eq_some_iff.1 hb
  show (a.prints ++ b.prints).findSome? _ = _
  rw [List.findSome?_append, List.findSome?_eq_none_iff.2 h, hps, List.findSome?_cons, hp]
  rfl

end Output

namespace Console

variable {t : Turn} {a b : Output} {p : Print}

theorem shown_of_passes (h : t.1.Passes terminal) :
    shown terminal t = (t.1.delivered terminal, t.2) := by
  rw [shown, h.refusal?_eq_none]

theorem shown_of_refused {phase : Phase} (h : a.Passes terminal)
    (hb : b.prints.head? = some p) (hp : p.refusal? terminal = some why) :
    shown terminal (a ++ b, phase) =
      ((a ++ b).delivered terminal, .finished (.unencodable why)) := by
  rw [shown, h.refusal?_append hb hp]

theorem passes_journalOutput (isVerbose : Bool) (records : List Record) :
    (journalOutput isVerbose records).Passes terminal := Output.passes_errorLines _

end Console

end Predictive
