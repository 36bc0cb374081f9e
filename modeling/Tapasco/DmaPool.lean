import Tapasco.UserSpaceDma

/-!
# Bounce Buffers and Failing Calls

A call takes a bounce buffer out of a pool, hands it over to the queue of outstanding transfers
or to its own list of them, and in the end a buffer goes back to the pool. In between the
buffer is in a local variable, and a call that fails there drops it: its memory is unmapped,
and the pool is smaller from then on. A stream to a device without streams fails after its transfer
was issued. Nobody looks at the queue of these transfers, and their buffers are not used again.
-/

open Threads List

namespace Tapasco

namespace CopyTo

/-- An ioctl fails while the call has a buffer. -/
def Drops (reply : Reply) (c : CopyTo) : Prop :=
  reply = .failed ∧ match c.pc with
    | .fromDev _ | .toDev _ => True
    | _ => False

/-- **A step drops a buffer** exactly if an ioctl fails for it. -/
theorem lost_call_iff (t : ℕ) (r : Reply) (s : Shared) (c : CopyTo) :
    (step t r s c).1.lost = s.lost ↔ ¬ Drops r c := by
  fun_cases step t r s c <;> simp_all [Drops, Shared.onChannel, dropBuffer]

namespace System

/-- The buffers in the pool, in the queues, and in the hands of calls. -/
def recorded (s : System) : ℕ :=
  s.shared.toDevBuffer.length + (s.shared.channel false).out.length +
    (s.shared.channel true).out.length + total (fun c => c.pc.holding.length) s.calls

/-- The buffers of transfers that are completed, in a queue that no call takes buffers out of. -/
def stuck (s : System) : ℕ :=
  if s.shared.isVersal then 0
  else (s.engine true).done - (s.shared.channel true).popped

/-- The buffers in the pool, of transfers that are outstanding or waited for, and in the hands of
calls. -/
def available (s : System) : ℕ :=
  s.shared.toDevBuffer.length + (s.shared.channel false).out.length +
    ((s.shared.channel true).out.length - s.stuck) + total (fun c => c.pc.holding.length) s.calls

/-- In this step nothing fails for a buffer, and no transfer of an unsupported stream completes. -/
def Keeps (s : System) : Action → Prop
  | .step t reply => ∀ c, s.calls[t]? = some c → ¬ Drops reply c
  | .complete true => s.shared.isVersal = true ∨
      (s.engine true).issued.length ≤ (s.engine true).done
  | _ => True

theorem length_out_afterCall (s : System) (t : ℕ) (r : Reply) (c : CopyTo) :
    ((s.afterCall t r c).shared.channel false).out.length +
        ((s.afterCall t r c).shared.channel true).out.length +
        (s.shared.channel c.stream).out.length =
      (s.shared.channel false).out.length + (s.shared.channel true).out.length +
        ((s.afterCall t r c).shared.channel c.stream).out.length := by
  have ho : ∀ st, st ≠ c.stream → (s.afterCall t r c).shared.channel st =
      s.shared.channel st := fun st hs => channel_step_of_ne t r s.shared c hs
  cases hs : c.stream with
  | false => rw [ho true (by rw [hs]; decide)]; omega
  | true => rw [ho false (by rw [hs]; decide)]; omega

theorem recorded_add_lost_afterCall {s : System} {t : ℕ} {c : CopyTo}
    (hc : s.calls[t]? = some c) (r : Reply) :
    (s.afterCall t r c).recorded + (s.afterCall t r c).shared.lost.length =
      s.recorded + s.shared.lost.length := by
  have hs : total (fun c => c.pc.holding.length) (s.afterCall t r c).calls +
      c.pc.holding.length = total (fun c => c.pc.holding.length) s.calls +
        (CopyTo.step t r s.shared c).2.pc.holding.length := total_set _ hc
  have ho := length_out_afterCall s t r c
  have hm : (s.afterCall t r c).shared.toDevBuffer.length +
      ((s.afterCall t r c).shared.channel c.stream).out.length +
      (s.afterCall t r c).shared.lost.length +
      (CopyTo.step t r s.shared c).2.pc.holding.length =
    s.shared.toDevBuffer.length + (s.shared.channel c.stream).out.length +
      s.shared.lost.length + c.pc.holding.length := by
    rw [afterCall]
    obtain ⟨hp, hq, hl, hh⟩ | ⟨b, hp, hq, hl, hh, hh'⟩ |
      ⟨b, hp, hq, hl, hh, hh'⟩ | ⟨b, hp, hq, hl, hh, hh'⟩ |
      ⟨b, hp, hq, hl, hh, hh'⟩ | ⟨b, hp, hq, hl, hh, hh'⟩ :=
      holding_step_cases t r s.shared c
    · rw [hp, hq, hl, hh]
    all_goals
      simp only [hp, hq, hl, hh, hh', length_cons, length_append, length_nil]
      omega
  rw [recorded, recorded]
  omega

theorem recorded_add_lost_step (s : System) (a : Action) :
    (s.step a).recorded + (s.step a).shared.lost.length = s.recorded + s.shared.lost.length := by
  refine step_rule (P := fun s' => s'.recorded + s'.shared.lost.length =
      s.recorded + s.shared.lost.length) rfl (fun stream data ptr => ?_)
    (fun t reply c hc => recorded_add_lost_afterCall hc reply) (fun stream f hf => ?_) a
  · rw [recorded, step, total_concat]
    rfl
  · obtain ⟨e, he, -⟩ := s.channel_onEngine stream hf false
    obtain ⟨e', he', -⟩ := s.channel_onEngine stream hf true
    rw [recorded, he, he']
    rfl

theorem available_add_stuck {s : System} (hc : s.Counts) (hq : s.Queued) :
    s.available + s.stuck = s.recorded := by
  have hlen := congrArg length (hq.queue true)
  have hdone := (hc.popped_le true).2.2
  simp only [length_append, length_map, length_drop] at hlen
  have hstuck : s.stuck ≤ (s.shared.channel true).out.length := by
    rw [stuck]
    split <;> omega
  rw [available, recorded]
  omega

theorem available_of_idle {s : System} (h : ∀ c ∈ s.calls, ∃ r, c.pc = .returned r) :
    s.available = s.shared.toDevBuffer.length + (s.shared.channel false).out.length +
      ((s.shared.channel true).out.length - s.stuck) := by
  rw [available, total_eq_zero fun c hc => ?_, add_zero]
  obtain ⟨r, hr⟩ := h c hc
  rw [hr]
  rfl

theorem popped_le_step (t : ℕ) (reply : Reply) (s : Shared) (c : CopyTo) :
    (s.channel c.stream).popped ≤ ((CopyTo.step t reply s c).1.channel c.stream).popped := by
  fun_cases CopyTo.step t reply s c <;> simp [Shared.onChannel, dropBuffer]

/-- A step of a call leaves no buffer behind in a queue. -/
theorem stuck_afterCall_le (s : System) (t : ℕ) (reply : Reply) (c : CopyTo) :
    (s.afterCall t reply c).stuck ≤ s.stuck := by
  have hch : ∀ st, ((s.afterCall t reply c).engine st).done -
      ((s.afterCall t reply c).shared.channel st).popped ≤
        (s.engine st).done - (s.shared.channel st).popped :=
    forall_of_changed_at (P := fun st ch => ch.engine.done - ch.popped ≤
        (s.engine st).done - (s.shared.channel st).popped)
      (channel_step_of_ne t reply s.shared c)
      (tsub_le_tsub (congrArg length (engine_step t reply s.shared c).2).le
        (popped_le_step t reply s.shared c)) fun _ _ => le_rfl
  rw [stuck, stuck, afterCall, isVersal_step]
  split
  · exact le_rfl
  · exact hch true

theorem stuck_onEngine (s : System) (f : Engine (List Byte) → Engine (List Byte)) :
    (s.onEngine true f).stuck = if s.shared.isVersal then 0
      else (f (s.engine true)).done - (s.shared.channel true).popped :=
  rfl

theorem stuck_complete_iff {s : System} (hc : s.Counts) (hs : s.stuck = 0) :
    (s.step (.complete true)).stuck = 0 ↔ s.Keeps (.complete true) := by
  obtain ⟨hint, hdone, -⟩ := hc.popped_le true
  rw [stuck] at hs
  rw [step, stuck_onEngine, Keeps, Engine.complete]
  cases hv : s.shared.isVersal with
  | true => simp
  | false =>
    rw [hv, if_neg Bool.false_ne_true] at hs
    rw [if_neg Bool.false_ne_true, or_iff_right Bool.false_ne_true, ← getElem?_eq_none_iff]
    cases hx : (s.engine true).issued[(s.engine true).done]? with
    | none => exact iff_of_true hs rfl
    | some x =>
      refine iff_of_false ?_ (by simp)
      simp only [Engine.done, length_append, length_singleton] at hint hdone ⊢
      omega

/-- **A step keeps the buffers** exactly if it drops none and leaves none behind. -/
theorem lost_step_iff {s : System} (hc : s.Counts) (hs : s.stuck = 0) (a : Action) :
    (s.step a).shared.lost = s.shared.lost ∧ (s.step a).stuck = 0 ↔ s.Keeps a := by
  cases a with
  | step t reply =>
    rw [step]
    cases hca : s.calls[t]? with
    | none => exact iff_of_true ⟨rfl, hs⟩ fun c hc' => absurd (hca.symm.trans hc') (by simp)
    | some c =>
      have hst := Nat.le_zero.mp (hs ▸ s.stuck_afterCall_le t reply c)
      refine (and_iff_left hst).trans ((lost_call_iff t reply s.shared c).trans
        ⟨fun h d hd => ?_, fun h => h c hca⟩)
      obtain rfl : c = d := Option.mem_unique hca hd
      exact h
  | complete stream =>
    cases stream with
    | true => exact (and_iff_right rfl).trans (stuck_complete_iff hc hs)
    | false => exact iff_of_true ⟨rfl, hs⟩ trivial
  | raise stream =>
    refine iff_of_true ⟨rfl, ?_⟩ trivial
    cases stream with
    | true =>
      rw [step, stuck_onEngine, Engine.done, Engine.log_raise]
      exact hs
    | false => exact hs
  | call stream data ptr => exact iff_of_true ⟨rfl, hs⟩ trivial

end System

end CopyTo

namespace CopyFrom

/-- The call fails while it has buffers: an ioctl fails for the buffer in its hands, or a read
of the interrupts fails while transfers are outstanding. -/
def Drops (isVersal : Bool) (reply : Reply) (c : CopyFrom) : Prop :=
  match c.pc with
  | .toDev _ | .copyback _ _ _ _ _ => reply = .failed
  | .update _ => (c.stream = true ∧ isVersal = false ∨ reply = .failed) ∧ c.buffers ≠ []
  | _ => False

/-- **A step drops buffers** exactly if the call fails while it has some. -/
theorem lost_call_iff (t : ℕ) (r : Reply) (s : Shared) (c : CopyFrom) :
    (step t r s c).1.lost = s.lost ↔ ¬ Drops s.isVersal r c := by
  fun_cases step t r s c <;> simp_all [Drops, Shared.onChannel, fail]

theorem holding_of_returned_step (t : ℕ) (rep : Reply) (s : Shared) {c : CopyFrom}
    (h : (∃ r, c.pc = .returned r) → c.holding = [])
    (hre : ∃ r, (step t rep s c).2.pc = .returned r) : (step t rep s c).2.holding = [] := by
  obtain ⟨r, hr⟩ := hre
  revert hr
  fun_cases step t rep s c <;>
    simp_all [goto, fail, holding, pieces, Pc.inHands, Pc.piece]

namespace System

/-- The calls that have returned have no buffers. -/
def ReturnedEmpty (s : System) : Prop :=
  ∀ c ∈ s.calls, (∃ r, c.pc = .returned r) → c.holding = []

theorem returnedEmpty_step {s : System} (h : s.ReturnedEmpty) (a : Action) :
    (s.step a).ReturnedEmpty :=
  step_rule h (fun _ _ _ => forall_concat h fun _ => rfl)
    (fun t reply c hc => forall_set h
      (holding_of_returned_step t reply s.shared (h c (mem_of_getElem? hc))))
    (fun _ _ _ _ => h) a

/-- The buffers in the pool, and those of calls, in their hands or with a transfer. -/
def available (s : System) : ℕ :=
  s.shared.fromDevBuffer.length + total (fun c => c.holding.length) s.calls

theorem ReturnedEmpty.available_of_idle {s : System} (h : s.ReturnedEmpty)
    (hi : ∀ c ∈ s.calls, ∃ r, c.pc = .returned r) :
    s.available = s.shared.fromDevBuffer.length := by
  rw [available, total_eq_zero fun c hc => ?_, add_zero]
  rw [h c hc (hi c hc)]
  rfl

/-- Nothing fails for a buffer in this step. -/
def Keeps (s : System) : Action → Prop
  | .step t reply => ∀ c, s.calls[t]? = some c → ¬ Drops s.shared.isVersal reply c
  | _ => True

theorem available_add_lost_afterCall {s : System} (ht : s.AllTidy) {t : ℕ} {c : CopyFrom}
    (hc : s.calls[t]? = some c) (r : Reply) :
    (s.afterCall t r c).available + (s.afterCall t r c).shared.lost.length =
      s.available + s.shared.lost.length := by
  have hs : total (fun c => c.holding.length) (s.afterCall t r c).calls +
      c.holding.length = total (fun c => c.holding.length) s.calls +
        (CopyFrom.step t r s.shared c).2.holding.length := total_set _ hc
  have hm : (s.afterCall t r c).shared.fromDevBuffer.length +
      (s.afterCall t r c).shared.lost.length +
      (CopyFrom.step t r s.shared c).2.holding.length =
    s.shared.fromDevBuffer.length + s.shared.lost.length + c.holding.length := by
    rw [afterCall]
    obtain ⟨b, hp, hl, hh⟩ | ⟨b, hp, hl, hh⟩ | ⟨hp, hl, -, hh⟩ |
      ⟨hp, hl, hh⟩ := holding_step_cases (ht c (mem_of_getElem? hc)) t r
    · simp only [hp, hl, hh, length_cons]
      omega
    · simp only [hp, hl, hh, length_cons, length_append, length_nil]
      omega
    · simp only [hp, hl, hh, length_append, length_map, length_nil]
      omega
    · rw [hp, hl, hh.length_eq]
  rw [available, available]
  omega

theorem available_add_lost_step {s : System} (ht : s.AllTidy) (a : Action) :
    (s.step a).available + (s.step a).shared.lost.length = s.available + s.shared.lost.length := by
  refine step_rule (P := fun s' => s'.available + s'.shared.lost.length =
      s.available + s.shared.lost.length) rfl (fun stream ptr data => ?_)
    (fun t reply c hc => available_add_lost_afterCall ht hc reply) (fun _ _ _ _ => rfl) a
  rw [available, step, total_concat]
  rfl

theorem lost_step_iff (s : System) (a : Action) :
    (s.step a).shared.lost = s.shared.lost ↔ s.Keeps a := by
  cases a with
  | step t reply =>
    rw [step]
    cases hc : s.calls[t]? with
    | none => exact iff_of_true rfl fun c hc' => absurd (hc.symm.trans hc') (by simp)
    | some c =>
      refine (lost_call_iff t reply s.shared c).trans ⟨fun h d hd => ?_, fun h => h c hc⟩
      obtain rfl : c = d := Option.mem_unique hc hd
      exact h
  | complete stream device =>
    refine iff_of_true ?_ trivial
    obtain heq | ⟨x, -, heq⟩ := step_complete_cases s stream device <;> rw [heq]
    rfl
  | _ => exact iff_of_true rfl trivial

end System

end CopyFrom

namespace UserSpaceDMA

/-- **All buffers are still there**: in the pools, with transfers that are outstanding or waited
for, or in the hands of calls, and not there when all calls have returned. -/
structure Conserved (toDev fromDev : List DMABuffer) (s : UserSpaceDMA) : Prop where
  writes : s.writes.available = toDev.length
  reads : s.reads.available = fromDev.length
  writesIdle : (∀ c ∈ s.writes.calls, ∃ r, c.pc = .returned r) →
    s.writes.shared.toDevBuffer.length + (s.writes.shared.channel false).out.length +
      ((s.writes.shared.channel true).out.length - s.writes.stuck) = toDev.length
  readsIdle : (∀ c ∈ s.reads.calls, ∃ r, c.pc = .returned r) →
    s.reads.shared.fromDevBuffer.length = fromDev.length

/-- No call fails in this step while it has a buffer, and no transfer of an unsupported stream
completes. -/
def KeepsBuffers (s : UserSpaceDMA) : Action → Prop
  | .write a => s.writes.Keeps a
  | .read a => s.reads.Keeps a

/-- Every buffer is recorded, available or lost. -/
structure Accounted (toDev fromDev : List DMABuffer) (s : UserSpaceDMA) : Prop where
  counts : s.writes.Counts
  queued : s.writes.Queued
  writes : s.writes.recorded + s.writes.shared.lost.length = toDev.length
  reads : s.reads.available + s.reads.shared.lost.length = fromDev.length
  tidy : s.reads.AllTidy
  returned : s.reads.ReturnedEmpty

variable {toDev fromDev : List DMABuffer}

variable {s : UserSpaceDMA}

theorem accounted_step (h : s.Accounted toDev fromDev) (a : Action) :
    (s.step a).Accounted toDev fromDev := by
  obtain ⟨hcounts, hqueued, hwrites⟩ : (s.step a).writes.Counts ∧ (s.step a).writes.Queued ∧
      (s.step a).writes.recorded + (s.step a).writes.shared.lost.length = toDev.length := by
    obtain heq | ⟨b, heq⟩ := writes_step_cases s a <;> rw [heq]
    · exact ⟨h.counts, h.queued, h.writes⟩
    · rw [CopyTo.System.recorded_add_lost_step]
      exact ⟨CopyTo.System.counts_step h.counts h.queued b,
        CopyTo.System.queued_step h.queued h.counts b, h.writes⟩
  refine ⟨hcounts, hqueued, hwrites, ?_, ?_, ?_⟩
  all_goals obtain heq | ⟨b, heq⟩ := reads_step_cases s a <;> rw [heq]
  · exact h.reads
  · rw [CopyFrom.System.available_add_lost_step h.tidy]
    exact h.reads
  · exact h.tidy
  · exact CopyFrom.System.allTidy_step h.tidy b
  · exact h.returned
  · exact CopyFrom.System.returnedEmpty_step h.returned b

theorem accounted_new (ver : Bool) (mt : ℕ → List Byte) (mf : ℕ → ByteMem)
    (mem : ByteMem) : (new toDev fromDev ver mt mf mem).Accounted toDev fromDev :=
  ⟨CopyTo.System.counts_new toDev ver mt, CopyTo.System.queued_new toDev ver mt, rfl, rfl,
    fun _ hc => absurd hc not_mem_nil, fun _ hc => absurd hc not_mem_nil⟩

theorem Accounted.conserved_iff_lost (h : s.Accounted toDev fromDev) :
    s.Conserved toDev fromDev ↔
      (s.writes.shared.lost = [] ∧ s.writes.stuck = 0) ∧ s.reads.shared.lost = [] := by
  have hwr := h.writes
  have hre := h.reads
  rw [← CopyTo.System.available_add_stuck h.counts h.queued] at hwr
  rw [← length_eq_zero_iff, ← length_eq_zero_iff]
  constructor
  · intro hc
    have hw := hc.writes
    have hr := hc.reads
    omega
  · rintro ⟨⟨hw, hst⟩, hr⟩
    refine ⟨by omega, by omega, fun hi => ?_, fun hi => ?_⟩
    · rw [CopyTo.System.available_of_idle hi] at hwr
      omega
    · rw [h.returned.available_of_idle hi] at hre
      omega

theorem keeps_of_writeWaits {a : CopyTo.Action} (h : s.writeWaits a = true) : s.writes.Keeps a := by
  cases a with
  | step t reply =>
    intro c hc hd
    rw [writeWaits, hc, Option.any_some, Bool.and_eq_true] at h
    obtain ⟨-, hpc⟩ := hd
    cases hpc' : c.pc <;> simp_all [CopyTo.Pc.atLock]
  | _ => trivial

theorem keeps_of_readWaits {a : CopyFrom.Action} (h : s.readWaits a = true) : s.reads.Keeps a := by
  cases a with
  | step t reply =>
    intro c hc hd
    rw [readWaits, hc, Option.any_some, Bool.and_eq_true] at h
    cases hpc' : c.pc <;> simp_all [CopyFrom.Pc.atLock, CopyFrom.Drops]
  | _ => trivial

theorem keeps_served_iff (s : UserSpaceDMA) (a : CopyFrom.Action) :
    s.reads.Keeps (s.served a) ↔ s.reads.Keeps a := by
  cases a with
  | complete stream device => cases stream <;> exact Iff.rfl
  | _ => exact Iff.rfl

theorem lost_step_iff (hc : s.writes.Counts) (hs : s.writes.stuck = 0) (a : Action) :
    ((s.step a).writes.shared.lost = s.writes.shared.lost ∧ (s.step a).writes.stuck = 0) ∧
        (s.step a).reads.shared.lost = s.reads.shared.lost ↔ s.KeepsBuffers a := by
  cases a with
  | write b =>
    rw [step]
    split
    · exact iff_of_true ⟨⟨rfl, hs⟩, rfl⟩ (keeps_of_writeWaits ‹_›)
    · exact (and_iff_left rfl).trans (CopyTo.System.lost_step_iff hc hs b)
  | read b =>
    rw [step]
    split
    · exact iff_of_true ⟨⟨rfl, hs⟩, rfl⟩ (keeps_of_readWaits ‹_›)
    · exact (and_iff_right ⟨rfl, hs⟩).trans
        ((CopyFrom.System.lost_step_iff s.reads (s.served b)).trans (keeps_served_iff s b))

/-- **Conservation of the bounce buffers**: in a run no buffer is ever missing exactly if no
call fails while it has a buffer and no transfer of an unsupported stream completes. -/
theorem conserved_iff (toDev fromDev : List DMABuffer) (isVersal : Bool)
    (mappedTo : ℕ → List Byte) (mappedFrom : ℕ → ByteMem) (memory : ByteMem)
    (actions : List Action) :
    (∀ s ∈ Runs.trace step (new toDev fromDev isVersal mappedTo mappedFrom memory) actions,
        s.Conserved toDev fromDev) ↔
      Runs.AllSteps step KeepsBuffers (new toDev fromDev isVersal mappedTo mappedFrom memory)
        actions := by
  have hnew : (new toDev fromDev isVersal mappedTo mappedFrom memory).Accounted toDev fromDev :=
    accounted_new isVersal mappedTo mappedFrom memory
  refine Runs.forall_mem_trace_iff (I := Accounted toDev fromDev)
    (fun _ a h => accounted_step h a) (fun s a h hconserved => ?_) hnew
    (hnew.conserved_iff_lost.mpr ⟨⟨rfl, ite_self _⟩, rfl⟩) actions
  obtain ⟨⟨hwrites, hstuck⟩, hreads⟩ := h.conserved_iff_lost.mp hconserved
  rw [(accounted_step h a).conserved_iff_lost, ← lost_step_iff h.counts hstuck, hwrites, hreads]

/-- A write whose first ioctl fails. -/
def failedSync : List Action :=
  [.write (.call false [1] 0x40), .write (.step 0 .ok), .write (.step 0 .ok),
    .write (.step 0 .failed)]

/-- **The pool shrinks**: the call has failed, and the only buffer is gone. -/
theorem failed_sync_shrinks_pool :
    ∃ s ∈ Runs.trace step (new [⟨0, 4, 0x1000⟩] [⟨1, 4, 0x2000⟩] false (fun _ => []) (fun _ _ => 0)
        fun _ => 0) failedSync,
      s.writes.calls.map CopyTo.pc = [.returned (.error .dmaBufferAllocate)] ∧
        s.writes.shared.toDevBuffer = [] ∧ (∀ st, (s.writes.shared.channel st).out = []) ∧
        ¬ s.Conserved [⟨0, 4, 0x1000⟩] [⟨1, 4, 0x2000⟩] := by
  refine ⟨_, Runs.run_mem_trace _ _, by decide +kernel, rfl, fun _ => rfl, fun h => ?_⟩
  exact absurd h.writes (by decide +kernel)

end UserSpaceDMA

end Tapasco
