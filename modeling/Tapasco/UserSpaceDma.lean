import Tapasco.DmaCopyToRuns
import Tapasco.DmaCopyFromRuns
import Tapasco.Lib.Progress

/-!
# Both Directions of the DMA Engine

The calls of `copy_to` and those of `copy_from` have pools, queues, counters and interrupts of
their own. What the two sides of a `UserSpaceDMA` share is the lock of the engine's registers
and the memory of the device. This module puts their transition systems together: a call of one
side waits for the lock while a call of the other side has it, a completed transfer to the
device stores its bytes, and one from the device takes the bytes that are there.

Addresses of the memory are those on the bus, with the offset of the device memory.
-/

open Word64

namespace Tapasco

/-- A call of `do_copy_to` that is about to take the lock. -/
def CopyTo.Pc.atLock : CopyTo.Pc → Bool
  | .lock _ => true
  | _ => false

/-- A call of `do_copy_from` that is about to take the lock. -/
def CopyFrom.Pc.atLock : CopyFrom.Pc → Bool
  | .lock _ => true
  | _ => false

/-- A `UserSpaceDMA` with the calls on it, and the memory of the device. -/
structure UserSpaceDMA where
  writes : CopyTo.System
  reads : CopyFrom.System
  memory : ByteMem

/-- While a single call is at work the caller makes a step, or the engine completes a transfer or
raises an interrupt. -/
inductive Move where
  | caller
  | complete
  | raise
  deriving DecidableEq

/-! ### What the engine has to do -/

namespace Engine

variable {ρ : Type} {e : Engine ρ}

/-- What is left to be done for the transfers that were issued. -/
def toDo (e : Engine ρ) : ℕ :=
  e.issued.length - e.done + 5 * (e.issued.length - e.raised) + 4 * e.pending

/-- The move that the engine makes next. -/
def nextMove (e : Engine ρ) : Move :=
  if e.raised < e.done then .raise else .complete

theorem complete_eq_self (h : ¬ e.done < e.issued.length) (rec : Transfer → ρ) :
    e.complete rec = e := by
  rw [complete, List.getElem?_eq_none (not_lt.mp h)]

theorem raise_eq_self (h : ¬ e.raised < e.done) : e.raise = e := by
  rw [raise, if_neg h]

theorem toDo_complete_lt (h : e.done < e.issued.length) (rec : Transfer → ρ) :
    (e.complete rec).toDo < e.toDo := by
  rw [done] at h
  simp only [toDo, complete, done, List.getElem?_eq_getElem h, List.length_append,
    List.length_singleton]
  omega

theorem InOrder.toDo_raise_lt (h : e.InOrder) (hlt : e.raised < e.done) :
    e.raise.toDo < e.toDo := by
  have hd := h.done_le
  rw [Engine.raise, if_pos hlt]
  rw [Engine.done] at hlt hd
  simp only [toDo, Engine.done]
  omega

section

variable {σ β : Type*} [Preorder β] {step : σ → Move → σ} {goal : σ → Prop} {rank : σ → β}
  {helpful : σ → Move} {s : σ}

/-- **The engine advances** if it lowers the rank by what it does, and if the move that helps is
its next one when it is not the caller's. -/
theorem advances (hi : e.InOrder)
    (hh : helpful s ≠ .caller → e.raised < e.issued.length ∧ helpful s = e.nextMove)
    (hc : e.done < e.issued.length → rank (step s .complete) < rank s)
    (hc' : ¬ e.done < e.issued.length → step s .complete = s)
    (hr : e.raise.toDo < e.toDo → rank (step s .raise) < rank s)
    (hr' : e.raise = e → step s .raise = s) {m : Move} (hm : m ≠ .caller) :
    Progress.Advances step goal rank helpful s m := by
  have hs : step s m = s → e.nextMove ≠ m ∨ ¬ e.raised < e.issued.length →
      Progress.Advances step goal rank helpful s m := by
    intro hsa hno
    rw [Progress.Advances, hsa]
    refine .inr (.inr ⟨fun heq => ?_, rfl, rfl⟩)
    obtain ⟨ho, hn⟩ := hh (heq ▸ hm)
    exact hno.elim (fun hne => hne (hn.symm.trans heq.symm)) (absurd ho)
  cases m with
  | caller => exact absurd rfl hm
  | complete =>
    by_cases hlt : e.done < e.issued.length
    · exact .inr (.inl (hc hlt))
    refine hs (hc' hlt) ?_
    by_cases ho : e.raised < e.issued.length
    · exact .inl (by rw [nextMove, if_pos (by omega)]; simp)
    · exact .inr ho
  | raise =>
    by_cases hlt : e.raised < e.done
    · exact .inr (.inl (hr (hi.toDo_raise_lt hlt)))
    · exact hs (hr' (raise_eq_self hlt)) (.inl (by rw [nextMove, if_neg hlt]; simp))

end

end Engine

theorem CopyTo.lock_step_of_none (t : ℕ) (reply : Reply) {s : Shared} {c : CopyTo}
    (h : s.lock = none) (hpc : c.pc.atLock = false) : (step t reply s c).1.lock = none := by
  fun_cases step t reply s c <;> simp_all [Shared.onChannel, dropBuffer, Pc.atLock]

theorem CopyFrom.lock_step_of_none (t : ℕ) (reply : Reply) {s : Shared} {c : CopyFrom}
    (h : s.lock = none) (hpc : c.pc.atLock = false) : (step t reply s c).1.lock = none := by
  fun_cases step t reply s c <;> simp_all [Shared.onChannel, fail, Pc.atLock]

namespace UserSpaceDMA

inductive Action where
  | write (a : CopyTo.Action)
  | read (a : CopyFrom.Action)

/-- The memory with bytes stored from an address on, where addresses wrap around. -/
def stored (memory : ByteMem) (addr : ℕ) (bytes : List Byte) : ByteMem := fun a =>
  if a < 2 ^ 64 then bytes.getD (wrappingSub a addr) (memory a) else memory a

/-- The memory after something happened on the side that writes. -/
def memoryAfter (s : UserSpaceDMA) : CopyTo.Action → ByteMem
  | .complete false =>
    let e := (s.writes.engine false)
    match e.issued[e.done]? with
    | some x =>
      stored s.memory x.desc.addrDevice
        ((s.writes.shared.mapped x.desc.addrHost).take x.desc.size)
    | none => s.memory
  | _ => s.memory

/-- A transfer from the memory takes the bytes that are there. What a stream delivers is not
determined by the device. -/
def served (s : UserSpaceDMA) : CopyFrom.Action → CopyFrom.Action
  | .complete false _ => .complete false s.memory
  | a => a

/-- The call has to wait, because a call that reads has the lock. -/
def writeWaits (s : UserSpaceDMA) : CopyTo.Action → Bool
  | .step t _ => (s.writes.calls[t]?).any (·.pc.atLock) && s.reads.shared.lock.isSome
  | _ => false

/-- The call has to wait, because a call that writes has the lock. -/
def readWaits (s : UserSpaceDMA) : CopyFrom.Action → Bool
  | .step t _ => (s.reads.calls[t]?).any (·.pc.atLock) && s.writes.shared.lock.isSome
  | _ => false

/-- **One action.** -/
def step (s : UserSpaceDMA) : Action → UserSpaceDMA
  | .write a =>
    if s.writeWaits a then s
    else { s with writes := s.writes.step a, memory := s.memoryAfter a }
  | .read a => if s.readWaits a then s else { s with reads := s.reads.step (s.served a) }

/-- A DMA engine with the given bounce buffers for the two directions. -/
def new (toDev fromDev : List DMABuffer) (isVersal : Bool) (mappedTo : ℕ → List Byte)
    (mappedFrom : ℕ → ByteMem) (memory : ByteMem) : UserSpaceDMA where
  writes := .new toDev isVersal mappedTo
  reads := .new fromDev isVersal mappedFrom
  memory

/-! ### The two sides -/

theorem writes_step_cases (s : UserSpaceDMA) (a : Action) :
    (s.step a).writes = s.writes ∨ ∃ b, (s.step a).writes = s.writes.step b := by
  cases a with
  | write b =>
    rw [step]
    split
    · exact .inl rfl
    · exact .inr ⟨b, rfl⟩
  | read b =>
    rw [step]
    split <;> exact .inl rfl

theorem reads_step_cases (s : UserSpaceDMA) (a : Action) :
    (s.step a).reads = s.reads ∨ ∃ b, (s.step a).reads = s.reads.step b := by
  cases a with
  | write b =>
    rw [step]
    split <;> exact .inl rfl
  | read b =>
    rw [step]
    split
    · exact .inl rfl
    · exact .inr ⟨s.served b, rfl⟩

/-- **The lock of the engine** is not taken for a write while a call that reads has it. -/
theorem lock_writes_step {s : UserSpaceDMA} (h : s.writes.shared.lock = none)
    (hr : s.reads.shared.lock ≠ none) (a : CopyTo.Action) (hw : ¬ s.writeWaits a = true) :
    (s.writes.step a).shared.lock = none := by
  cases a with
  | step t reply =>
    rw [CopyTo.System.step]
    split
    · refine CopyTo.lock_step_of_none t reply h ?_
      simpa [writeWaits, *, Option.isSome_iff_ne_none] using hw
    · exact h
  | _ => exact h

theorem lock_reads_step {s : UserSpaceDMA} (h : s.reads.shared.lock = none)
    (hw : s.writes.shared.lock ≠ none) (a : CopyFrom.Action) (hr : ¬ s.readWaits a = true) :
    (s.reads.step a).shared.lock = none := by
  cases a with
  | step t reply =>
    rw [CopyFrom.System.step]
    split
    · refine CopyFrom.lock_step_of_none t reply h ?_
      simpa [readWaits, *, Option.isSome_iff_ne_none] using hr
    · exact h
  | complete stream device =>
    rw [CopyFrom.System.step, CopyFrom.System.complete]
    split <;> exact h
  | _ => exact h

theorem readWaits_served (s : UserSpaceDMA) (a : CopyFrom.Action) :
    s.readWaits (s.served a) = s.readWaits a := by
  rcases a with _ | _ | ⟨_ | _, _⟩ | _ <;> rfl

/-- The bounce buffers of each direction are at different addresses. -/
structure Distinct (toDev fromDev : List DMABuffer) : Prop where
  toDev : (toDev.map DMABuffer.addr).Nodup
  fromDev : (fromDev.map DMABuffer.addr).Nodup

/-- **The invariant** of both sides. -/
structure Inv (toDev fromDev : List DMABuffer) (s : UserSpaceDMA) : Prop where
  writes : s.writes.Inv toDev
  reads : s.reads.Inv fromDev
  exclusive : s.writes.shared.lock = none ∨ s.reads.shared.lock = none

section

variable {toDev fromDev : List DMABuffer} (hbuffers : Distinct toDev fromDev)

include hbuffers

theorem inv_step {s : UserSpaceDMA} (h : s.Inv toDev fromDev) (a : Action) :
    (s.step a).Inv toDev fromDev := by
  constructor
  · obtain heq | ⟨b, heq⟩ := writes_step_cases s a <;> rw [heq]
    · exact h.writes
    · exact CopyTo.System.inv_step hbuffers.toDev h.writes b
  · obtain heq | ⟨b, heq⟩ := reads_step_cases s a <;> rw [heq]
    · exact h.reads
    · exact CopyFrom.System.inv_step hbuffers.fromDev h.reads b
  · rw [step.eq_def]
    rcases a with a | a <;> dsimp only <;> split
    · exact h.exclusive
    · rename_i hw
      by_cases hr : s.reads.shared.lock = none
      · exact .inr hr
      · exact .inl (lock_writes_step (h.exclusive.resolve_right hr) hr a hw)
    · exact h.exclusive
    · rename_i hr
      by_cases hw : s.writes.shared.lock = none
      · exact .inl hw
      · rw [← readWaits_served] at hr
        exact .inr (lock_reads_step (h.exclusive.resolve_left hw) hw _ hr)

theorem inv_new (ver : Bool) (mt : ℕ → List Byte) (mf : ℕ → ByteMem) (mem : ByteMem) :
    (new toDev fromDev ver mt mf mem).Inv toDev fromDev where
  writes := CopyTo.System.inv_new hbuffers.toDev ver mt
  reads := CopyFrom.System.inv_new hbuffers.fromDev ver mf
  exclusive := .inl rfl

/-- **Both directions at once**: whatever calls write and read, each direction is safe, and no call
that writes is at the registers of the engine together with one that reads. -/
theorem safe_of_mem_trace (ver : Bool) (mt : ℕ → List Byte) (mf : ℕ → ByteMem) (mem : ByteMem)
    (as : List Action) :
    ∀ s ∈ Runs.trace step (new toDev fromDev ver mt mf mem) as,
      s.writes.WriteSafe ∧ s.reads.ReadSafe fromDev ∧ ∀ c ∈ s.writes.calls, ∀ d ∈ s.reads.calls,
        ¬ (c.pc.hasLock = true ∧ d.pc.hasLock = true) := by
  intro s hs
  have hi := Runs.forall_mem_trace (P := Inv toDev fromDev) (fun _ a h => inv_step hbuffers h a)
    (inv_new hbuffers ver mt mf mem) as s hs
  refine ⟨hi.writes.writeSafe hbuffers.toDev, hi.reads.readSafe hbuffers.fromDev, ?_⟩
  rintro c hc d hd ⟨hcl, hdl⟩
  obtain ⟨t, ht⟩ := List.getElem?_of_mem hc
  obtain ⟨u, hu⟩ := List.getElem?_of_mem hd
  have hw := hi.writes.queued.lock t c ht hcl
  have hr := hi.reads.indexed.lock u d hu hdl
  obtain he | he := hi.exclusive
  · simp [he] at hw
  · simp [he] at hr

end

/-- A write and a read. The read comes to the lock while the write has it, and issues its transfer
after that of the write, which is then completed. -/
def bothDirections : List Action :=
  [.write (.call false [1, 2, 3] 64), .read (.call false 64 [0, 0])] ++
    List.replicate 7 (.write (.step 0 .ok)) ++ List.replicate 10 (.read (.step 0 .ok)) ++
    List.replicate 2 (.write (.step 0 .ok)) ++ List.replicate 2 (.read (.step 0 .ok)) ++
    [.write (.complete false)]

theorem safe_of_mem_trace_two_calls :
    ∃ s ∈ Runs.trace step (new [⟨0, 4, 0x1000⟩, ⟨1, 4, 0x3000⟩] [⟨0, 2, 0x2000⟩, ⟨1, 2, 0x4000⟩]
        false (fun _ => []) (fun _ _ => 0) fun _ => 0) bothDirections,
      ((s.writes.shared.channel false).engine.done = 1 ∧
        (s.reads.shared.channel false).engine.issued.length = 1 ∧ s.reads.shared.lock = some 0) ∧
      s.writes.WriteSafe ∧ s.reads.ReadSafe [⟨0, 2, 0x2000⟩, ⟨1, 2, 0x4000⟩] ∧
      ∀ c ∈ s.writes.calls, ∀ d ∈ s.reads.calls, ¬ (c.pc.hasLock = true ∧ d.pc.hasLock = true) :=
  ⟨_, Runs.run_mem_trace _ _, by decide +kernel,
    safe_of_mem_trace ⟨by decide, by decide⟩ false _ _ _ _ _ (Runs.run_mem_trace _ _)⟩

end UserSpaceDMA

end Tapasco
