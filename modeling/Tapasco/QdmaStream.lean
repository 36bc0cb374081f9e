import Tapasco.Lib.Runs
import Mathlib.Order.Nat
import Mathlib.Algebra.Group.Nat.Defs

/-!
# Completions of QDMA Streams

The QDMA engine writes an entry into a ring for each packet of a stream to the host. The last entry
of the ring has the producer index of the engine and the consumer index that the driver has
acknowledged. This module embeds the interrupt handler that turns the difference of the two into
signals of an eventfd.

The engine counts modulo 63. It updates the indices in the ring some time after it has written an
entry, and an interrupt may come at any time. The eventfd of the interrupt is set after the handler
has been registered, and taken away before it is removed; without it the handler acknowledges the
entries all the same.
-/

namespace Tapasco.QdmaStream

def qdmaCmptRingSz : ℕ := 64

/-- The indices in the last entry of the ring. -/
structure QdmaCmplStatus where
  pidx : ℕ
  cidx : ℕ

/-- `idx_diff` of the handler, a 32 bit number. -/
def idxDiff (s : QdmaCmplStatus) : ℕ :=
  if s.pidx < s.cidx then (s.pidx + qdmaCmptRingSz - 1 + 2 ^ 32 - s.cidx) % 2 ^ 32
  else s.pidx - s.cidx

/-- What the handler writes to acknowledge the entries: the trigger mode and two flags in the upper
half of the word, and the index. -/
def ackWord (pidx : ℕ) : ℕ :=
  3 <<< 24 ||| 1 <<< 28 ||| 1 <<< 27 ||| pidx

/-- The engine, the handler and the eventfd. `completions` are the entries written so far,
`reported` and `handled` how many there were when the indices in the ring were updated and up to the
last handled producer index, and `unheard` those handled without an eventfd. -/
structure State where
  completions : ℕ
  pidx : ℕ
  status : QdmaCmplStatus
  reported : ℕ
  handled : ℕ
  eventfd : Bool
  signals : ℕ
  unheard : ℕ

def State.new : State :=
  ⟨0, 0, ⟨0, 0⟩, 0, 0, false, 0, 0⟩

inductive Action where
  /-- The engine writes an entry. -/
  | complete
  /-- The engine updates the producer index in the ring. -/
  | report
  | interrupt
  | setEventfd (set : Bool)

/-- `qdma_intr_handler_c2h_stream`. The engine takes the index from the lower half of the
acknowledgement and shows it as consumer index from then on. -/
def qdmaIntrHandlerC2hStream (s : State) : State :=
  let diff := idxDiff s.status
  { s with
    signals := if s.eventfd then s.signals + diff else s.signals
    unheard := if s.eventfd then s.unheard else s.unheard + (s.reported - s.handled)
    status := { s.status with cidx := ackWord s.status.pidx % 2 ^ 16 }
    handled := s.reported }

def step (s : State) : Action → State
  | .complete =>
    { s with completions := s.completions + 1, pidx := (s.pidx + 1) % (qdmaCmptRingSz - 1) }
  | .report => { s with status := { s.status with pidx := s.pidx }, reported := s.completions }
  | .interrupt => qdmaIntrHandlerC2hStream s
  | .setEventfd set => { s with eventfd := set }

/-- Fewer than 63 entries are not acknowledged. -/
def Outstanding (s : State) : Prop :=
  s.completions < s.handled + 63

instance (s : State) : Decidable (Outstanding s) :=
  inferInstanceAs (Decidable (_ < _))

/-- The indices are those of the numbers of entries, and every handled entry is accounted for. -/
structure Inv (s : State) : Prop where
  pidx : s.pidx = s.completions % 63
  status : s.status = ⟨s.reported % 63, s.handled % 63⟩
  handled_le : s.handled ≤ s.reported
  reported_le : s.reported ≤ s.completions
  signals : s.signals + s.unheard = s.handled

theorem ackWord_mod : ∀ pidx < 63, ackWord pidx % 2 ^ 16 = pidx := by
  decide

/-- **The difference of two indices** is the number of entries between them. -/
theorem idxDiff_mod {a b : ℕ} (hab : a ≤ b) (hlt : b < a + 63) :
    idxDiff ⟨b % 63, a % 63⟩ = b - a := by
  simp only [idxDiff, qdmaCmptRingSz]
  split <;> omega

theorem Inv.step {s : State} (h : Inv s) (a : Action) (ho : Outstanding s) : Inv (step s a) := by
  cases a with
  | complete =>
    refine ⟨?_, h.status, h.handled_le, h.reported_le.trans (Nat.le_succ _), h.signals⟩
    simp only [QdmaStream.step, qdmaCmptRingSz, h.pidx]
    omega
  | report =>
    refine ⟨h.pidx, ?_, h.handled_le.trans h.reported_le, le_rfl, h.signals⟩
    simp only [QdmaStream.step, h.pidx, h.status]
  | interrupt =>
    have hd : idxDiff s.status = s.reported - s.handled := by
      rw [h.status]
      exact idxDiff_mod h.handled_le (h.reported_le.trans_lt ho)
    have hle := h.handled_le
    have hs := h.signals
    refine ⟨h.pidx, ?_, le_rfl, h.reported_le, ?_⟩
    · simp only [QdmaStream.step, qdmaIntrHandlerC2hStream, h.status,
        ackWord_mod _ (Nat.mod_lt _ (by decide))]
    · simp only [QdmaStream.step, qdmaIntrHandlerC2hStream, hd]
      split <;> omega
  | setEventfd set => exact ⟨h.pidx, h.status, h.handled_le, h.reported_le, h.signals⟩

/-- **Completions are counted exactly.** In a run in which the engine never has 63 or more entries
that are not acknowledged, the signals given are the completions up to the last handled producer
index, without those that were handled while there was no eventfd. -/
theorem signals_add_unheard {as : List Action}
    (hout : Runs.AllSteps step (fun s _ => Outstanding s) .new as) :
    ∀ s ∈ Runs.trace step .new as, s.signals + s.unheard = s.handled := by
  have hnew : Inv .new := ⟨rfl, rfl, le_rfl, le_rfl, rfl⟩
  intro s hs
  exact (Runs.forall_mem_trace_of (fun _ a h hout => h.step a hout) hnew hout s hs).signals

/-- Two interrupts, each for 40 completions. The index wraps around in between. -/
theorem signals_add_unheard_two :
    let calls := .setEventfd true :: (List.replicate 40 .complete ++ [.report, .interrupt] ++
      List.replicate 40 .complete ++ [.report, .interrupt])
    (Runs.run step .new calls).pidx = 17 ∧ (Runs.run step .new calls).signals = 80 ∧
      ∀ s ∈ Runs.trace step .new calls, s.signals + s.unheard = s.handled :=
  ⟨by decide +kernel, by decide +kernel, signals_add_unheard (by decide +kernel)⟩

/-- A completion that is handled before the eventfd is set is acknowledged and never signalled. -/
theorem completion_unheard :
    let s := Runs.run step .new [.complete, .report, .interrupt, .setEventfd true, .interrupt]
    s.handled = 1 ∧ s.signals = 0 := by
  decide

end Tapasco.QdmaStream
