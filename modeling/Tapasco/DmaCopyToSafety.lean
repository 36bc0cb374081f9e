import Tapasco.DmaCopyTo
import Tapasco.Lib.Ownership
import Tapasco.Lib.Threads

/-!
# Bounce Buffers Come Back in Order

The threads in `copy_to` share one counter of interrupts and one queue of outstanding
buffers, and any of them may return a buffer that another one has issued. The buffers come
back to the pool in the order in which their transfers were issued, one for each interrupt
that was counted, so at no time are more of them back than transfers are completed.
-/

open Threads Ownership List

namespace Tapasco.CopyTo

open Engine

variable {t : ℕ} {c : CopyTo}

/-! ### What a call has in its hands -/

/-- The buffer that a call has. -/
def Pc.holding : Pc → List DMABuffer
  | .fromDev buffer | .fill buffer | .toDev buffer | .lock buffer | .push buffer => [buffer]
  | .waitPush _ _ buffer => [buffer]
  | _ => []

/-- The interrupts that a call has read and not counted. -/
def Pc.toCount : Pc → ℕ
  | .waitCount _ n | .waitPop _ n | .waitPush _ n _ => n
  | _ => 0

/-- The interrupts that a call has counted without taking a buffer out of the queue. -/
def Pc.toPop : Pc → ℕ
  | .waitPop _ _ => 1
  | _ => 0

/-- The transfers that a call has issued and not counted. -/
def Pc.uncounted : Pc → ℕ
  | .count => 1
  | _ => 0

/-- The buffers that a call has put into the queue without a transfer. -/
def Pc.unscheduled : Pc → List ℕ
  | .schedule addr => [addr]
  | _ => []

def Pc.hasLock : Pc → Bool
  | .push _ | .schedule _ | .count => true
  | _ => false

/-- The buffers without a transfer on a channel. -/
def unscheduledOn (st : Bool) (c : CopyTo) : List ℕ :=
  if c.stream = st then c.pc.unscheduled else []

section

variable (t : ℕ) (reply : Reply) (s : Shared) (c : CopyTo)

theorem stream_step : (step t reply s c).2.stream = c.stream := by
  fun_cases step t reply s c <;> rfl

theorem data_step : (step t reply s c).2.data = c.data := by
  fun_cases step t reply s c <;> rfl

theorem isVersal_step : (step t reply s c).1.isVersal = s.isVersal := by
  fun_cases step t reply s c <;> rfl

theorem channel_step_of_ne {st : Bool} (hs : st ≠ c.stream) :
    (step t reply s c).1.channel st = s.channel st := by
  fun_cases step t reply s c <;> first | rfl | exact Function.update_of_ne hs _ _

end

/-! ### The counters and the queue -/

namespace System

/-- Interrupts that were raised are counted, or read by a call, or in the eventfd; buffers
that belong to counted interrupts are popped, or will be next. -/
structure Counts (s : System) : Prop where
  inOrder : ∀ st, (s.engine st).InOrder
  counted : ∀ st, (s.shared.channel st).intCntr +
    total (share CopyTo.stream st fun c => c.pc.toCount) s.calls +
    (s.engine st).pending = (s.engine st).raised
  popped : ∀ st, (s.shared.channel st).popped +
    total (share CopyTo.stream st fun c => c.pc.toPop) s.calls = (s.shared.channel st).intCntr

/-- The queue has the buffers of the transfers that were not popped, in their order, and one
without a transfer if the call that has the lock is about to issue it. -/
structure Queued (s : System) : Prop where
  lock : ∀ t c, s.calls[t]? = some c → c.pc.hasLock = true → s.shared.lock = some t
  indexed : ∀ st, (s.shared.channel st).cntr +
    total (share CopyTo.stream st fun c => c.pc.uncounted) s.calls =
    (s.engine st).issued.length
  queue : ∀ st, (((s.engine st).issued.drop (s.shared.channel st).popped).map
      fun x => x.desc.addrHost) ++ s.calls.flatMap (unscheduledOn st) =
    (s.shared.channel st).out.map DMABuffer.addr

/-- **The number of buffers that came back** never exceeds the number of completed
transfers. -/
theorem Counts.popped_le {s : System} (h : s.Counts) (st : Bool) :
    (s.shared.channel st).popped ≤ (s.shared.channel st).intCntr ∧
      (s.shared.channel st).intCntr ≤ (s.engine st).done ∧
      (s.engine st).done ≤ (s.engine st).issued.length := by
  have hc := h.counted st
  have hp := h.popped st
  have hr := (h.inOrder st).raised_le
  exact ⟨by omega, by omega, (h.inOrder st).done_le⟩

theorem out_ne_nil {s : System} (hco : s.Counts) (hq : s.Queued) (hc : s.calls[t]? = some c)
    (next : Bool) (n : ℕ) (hpc : c.pc = .waitPop next n) :
    (s.shared.channel c.stream).popped < (s.engine c.stream).issued.length ∧
      (s.shared.channel c.stream).out ≠ [] := by
  have hs : c.pc.toPop ≤ total (share CopyTo.stream c.stream fun c => c.pc.toPop) s.calls :=
    le_total_share hc fun c => c.pc.toPop
  rw [hpc] at hs
  have hp := hco.popped c.stream
  obtain ⟨-, hle, hle'⟩ := hco.popped_le c.stream
  have hlt : (s.shared.channel c.stream).popped <
      (s.engine c.stream).issued.length := by
    rw [Pc.toPop] at hs
    omega
  refine ⟨hlt, fun hn => ?_⟩
  have hqu := hq.queue c.stream
  rw [hn, map_nil, append_eq_nil_iff, map_eq_nil_iff, drop_eq_nil_iff] at hqu
  omega

end System

section

variable (t : ℕ) (reply : Reply) (s : Shared) (c : CopyTo)

/-- The interrupts of a channel are conserved by a step, unless it finds the queue empty. -/
theorem counted_step (ho : ∀ next n, c.pc = .waitPop next n → (s.channel c.stream).out ≠ []) :
    ((step t reply s c).1.channel c.stream).intCntr + (step t reply s c).2.pc.toCount +
        ((step t reply s c).1.channel c.stream).engine.pending =
      (s.channel c.stream).intCntr + c.pc.toCount + (s.channel c.stream).engine.pending := by
  fun_cases step t reply s c <;>
    simp_all [Shared.onChannel, goto, dropBuffer, Pc.toCount, issue,
      checkForInterrupt]
  omega

theorem popped_step (ho : ∀ next n, c.pc = .waitPop next n → (s.channel c.stream).out ≠ []) :
    ((step t reply s c).1.channel c.stream).popped + (step t reply s c).2.pc.toPop +
        (s.channel c.stream).intCntr =
      (s.channel c.stream).popped + c.pc.toPop +
        ((step t reply s c).1.channel c.stream).intCntr := by
  fun_cases step t reply s c <;>
    simp_all [Shared.onChannel, goto, dropBuffer, Pc.toPop, issue, checkForInterrupt]
  all_goals omega

theorem indexed_step :
    ((step t reply s c).1.channel c.stream).cntr + (step t reply s c).2.pc.uncounted +
        (s.channel c.stream).engine.issued.length =
      (s.channel c.stream).cntr + c.pc.uncounted +
        ((step t reply s c).1.channel c.stream).engine.issued.length := by
  fun_cases step t reply s c <;>
    simp_all [Shared.onChannel, goto, dropBuffer, Pc.uncounted, issue,
      checkForInterrupt]
  all_goals omega

theorem inOrder_step (h : (s.channel c.stream).engine.InOrder) :
    ((step t reply s c).1.channel c.stream).engine.InOrder := by
  fun_cases step t reply s c <;>
    simp_all [Shared.onChannel, goto, dropBuffer, Engine.InOrder.issue,
      Engine.InOrder.checkForInterrupt]

theorem engine_step : ((step t reply s c).1.channel c.stream).engine.raised =
      (s.channel c.stream).engine.raised ∧
    ((step t reply s c).1.channel c.stream).engine.log = (s.channel c.stream).engine.log := by
  fun_cases step t reply s c <;>
    simp_all [Shared.onChannel, goto, dropBuffer, issue, checkForInterrupt]

theorem lock_step (h : c.pc.hasLock = true → s.lock = some t) :
    ((step t reply s c).2.pc.hasLock = true → (step t reply s c).1.lock = some t) ∧
      ∀ u, u ≠ t → s.lock = some u → (step t reply s c).1.lock = some u := by
  fun_cases step t reply s c <;>
    simp_all [Shared.onChannel, goto, dropBuffer, Pc.hasLock]
  exact fun u hu => Ne.symm hu

theorem queue_step_cases :
    (∃ b, c.pc = .push b ∧ (step t reply s c).2.pc = .schedule b.addr ∧
      (step t reply s c).1.channel c.stream =
        { s.channel c.stream with out := (s.channel c.stream).out ++ [b] }) ∨
    (∃ a, c.pc = .schedule a ∧ (step t reply s c).2.pc = .count ∧
      (step t reply s c).1.channel c.stream =
        { s.channel c.stream with
          engine := (s.channel c.stream).engine.issue (c.transfer s t a) }) ∨
    (∃ next n b rest, c.pc = .waitPop next n ∧ (step t reply s c).2.pc = .waitPush next n b ∧
      (s.channel c.stream).out = b :: rest ∧
      (step t reply s c).1.channel c.stream =
        { s.channel c.stream with out := rest, popped := (s.channel c.stream).popped + 1 }) ∨
    (step t reply s c).2.pc.unscheduled = c.pc.unscheduled ∧
      ((step t reply s c).1.channel c.stream).out = (s.channel c.stream).out ∧
      ((step t reply s c).1.channel c.stream).popped = (s.channel c.stream).popped ∧
      ((step t reply s c).1.channel c.stream).engine.issued =
        (s.channel c.stream).engine.issued := by
  fun_cases step t reply s c <;>
    simp_all [Shared.onChannel, goto, dropBuffer, Pc.unscheduled, checkForInterrupt]

end

namespace System

def afterCall (s : System) (t : ℕ) (reply : Reply) (c : CopyTo) : System :=
  ⟨(CopyTo.step t reply s.shared c).1, s.calls.set t (CopyTo.step t reply s.shared c).2⟩

theorem step_call_cases (s : System) (t : ℕ) (reply : Reply) :
    s.step (.step t reply) = s ∨
      ∃ c, s.calls[t]? = some c ∧ s.step (.step t reply) = s.afterCall t reply c := by
  rw [step]
  split
  · rename_i c hc
    exact .inr ⟨c, hc, rfl⟩
  · exact .inl rfl

/-- A step of a call that has begun. -/
theorem step_of_call {s : System} {t : ℕ} {c : CopyTo} (hc : s.calls[t]? = some c) (reply : Reply) :
    s.step (.step t reply) = s.afterCall t reply c := by
  rw [step, hc]
  rfl

/-- **A rule for actions**: a call begins or makes a step, or the engine works. -/
theorem step_rule {s : System} {P : System → Prop} (h : P s)
    (hca : ∀ stream data ptr, P (s.step (.call stream data ptr)))
    (hs : ∀ t reply c, s.calls[t]? = some c → P (s.afterCall t reply c))
    (he : ∀ stream f, (∀ e, Engine.Works e (f e)) → P (s.onEngine stream f)) (a : Action) :
    P (s.step a) := by
  cases a with
  | call stream data ptr => exact hca stream data ptr
  | step t reply =>
    obtain heq | ⟨c, hc, heq⟩ := step_call_cases s t reply <;> rw [heq]
    · exact h
    · exact hs t reply c hc
  | complete stream => exact he stream _ (works_complete _)
  | raise stream => exact he stream _ works_raise

theorem forall_calls_step {s : System} {P : CopyTo → Prop}
    (hn : ∀ stream data ptr, P (CopyTo.new stream data ptr))
    (hs : ∀ t reply c, s.calls[t]? = some c → P c → P (CopyTo.step t reply s.shared c).2)
    (h : ∀ c ∈ s.calls, P c) (a : Action) : ∀ c ∈ (s.step a).calls, P c :=
  step_rule (P := fun s => ∀ c ∈ s.calls, P c) h
    (fun stream data ptr => forall_concat h (hn stream data ptr))
    (fun t reply c hc => forall_set h (hs t reply c hc (h c (mem_of_getElem? hc))))
    (fun _ _ _ => h) a

theorem channel_onEngine (s : System) (stream : Bool)
    {f : Engine (List Byte) → Engine (List Byte)} (hf : ∀ e, Engine.Works e (f e)) (st : Bool) :
    ∃ e, (s.onEngine stream f).shared.channel st = { s.shared.channel st with engine := e } ∧
      (s.engine st).Works e := by
  by_cases hs : st = stream
  · subst hs
    exact ⟨_, Function.update_self _ _ _, hf _⟩
  · exact ⟨_, Function.update_of_ne hs _ _, .refl _⟩

variable {s : System} {t : ℕ}

theorem forall_channel_onEngine {stream : Bool} {f : Engine (List Byte) → Engine (List Byte)}
    {P : Bool → Channel → Prop} (h : ∀ st, P st (s.shared.channel st))
    (hs : P stream { s.shared.channel stream with
      engine := f (s.engine stream) }) :
    ∀ st, P st ((s.onEngine stream f).shared.channel st) :=
  (Function.forall_update_iff _ P).mpr ⟨hs, fun st _ => h st⟩

variable {c : CopyTo}

theorem Counts.afterCall (h : s.Counts) (hq : s.Queued) (hc : s.calls[t]? = some c)
    (reply : Reply) : (s.afterCall t reply c).Counts := by
  have ho := fun next n hpc => (out_ne_nil h hq hc next n hpc).2
  have hs := stream_step t reply s.shared c
  have hr := (engine_step t reply s.shared c).1
  refine ⟨?_, ?_, ?_⟩
  · exact forall_of_changed_at (P := fun _ ch => ch.engine.InOrder)
      (channel_step_of_ne t reply s.shared c) (inOrder_step t reply s.shared c (h.inOrder _))
      fun st _ => h.inOrder st
  · refine forall_share_set (P := fun ch n => ch.intCntr + n + ch.engine.pending =
      ch.engine.raised) h.counted hc hs (channel_step_of_ne t reply s.shared c)
      fun n n' hn hol => ?_
    have hl := counted_step t reply s.shared c ho
    omega
  · refine forall_share_set (P := fun ch n => ch.popped + n = ch.intCntr) h.popped hc hs
      (channel_step_of_ne t reply s.shared c) fun n n' hn hol => ?_
    have hl := popped_step t reply s.shared c ho
    omega

theorem counts_step (h : s.Counts) (hq : s.Queued) (a : Action) : (s.step a).Counts := by
  refine step_rule h (fun stream data ptr => ?_)
    (fun t reply c hc => h.afterCall hq hc reply) (fun stream f hf => ?_) a
  · refine ⟨h.inOrder, fun st => ?_, fun st => ?_⟩
    · rw [step, total_share_concat]
      · exact h.counted st
      · rfl
    · rw [step, total_share_concat]
      · exact h.popped st
      · rfl
  · refine ⟨fun st => ?_, fun st => ?_, fun st => ?_⟩
    all_goals
      obtain ⟨e, he, hw⟩ := s.channel_onEngine stream hf st
      simp only [engine, he]
    · exact hw.inOrder (h.inOrder st)
    · have hco : _ + total _ (s.onEngine stream f).calls + _ = _ := h.counted st
      have hr := hw.raised
      omega
    · exact h.popped st

theorem Queued.unscheduledOn_eq_nil (h : s.Queued) {u : ℕ} {d : CopyTo}
    (hl : s.shared.lock = some t) (hut : u ≠ t) (hd : s.calls[u]? = some d) (st : Bool) :
    unscheduledOn st d = [] := by
  have hpc : d.pc.unscheduled = [] := by
    cases hpc : d.pc with
    | schedule addr =>
      have hu : s.shared.lock = some u := h.lock u d hd (by rw [hpc]; rfl)
      exact absurd (Option.mem_unique hu hl) hut
    | _ => rfl
  rw [unscheduledOn, hpc, ite_self]

theorem Queued.flatMap_unscheduledOn (h : s.Queued) (hl : s.shared.lock = some t)
    (hc : s.calls[t]? = some c) : s.calls.flatMap (unscheduledOn c.stream) = c.pc.unscheduled := by
  rw [flatMap_eq_of_unique hc fun u d hut hd => h.unscheduledOn_eq_nil hl hut hd c.stream]
  exact if_pos rfl

theorem Queued.flatMap_unscheduledOn_set (h : s.Queued) {c' : CopyTo}
    (hl : s.shared.lock = some t) (hc : s.calls[t]? = some c) (hs : c'.stream = c.stream) :
    (s.calls.set t c').flatMap (unscheduledOn c.stream) = c'.pc.unscheduled := by
  have hc' : (s.calls.set t c')[t]? = some c' := by
    rw [getElem?_set_self (lt_of_getElem? hc)]
  rw [flatMap_eq_of_unique hc' fun u d hut hd => ?_]
  · exact if_pos hs
  · rw [getElem?_set_ne (Ne.symm hut)] at hd
    exact h.unscheduledOn_eq_nil hl hut hd c.stream

theorem Queued.queue_afterCall (h : s.Queued) (hco : s.Counts) (hc : s.calls[t]? = some c)
    (reply : Reply) :
    ((((s.afterCall t reply c).engine c.stream).issued.drop
        ((s.afterCall t reply c).shared.channel c.stream).popped).map fun x => x.desc.addrHost) ++
      (s.afterCall t reply c).calls.flatMap (unscheduledOn c.stream) =
      ((s.afterCall t reply c).shared.channel c.stream).out.map DMABuffer.addr := by
  have hs := stream_step t reply s.shared c
  have hq := h.queue c.stream
  have hl := h.lock t c hc
  rcases queue_step_cases t reply s.shared c with
    ⟨b, hpc, hpc', hch⟩ | ⟨a, hpc, hpc', hch⟩ | ⟨next, n, b, rest, hpc, hpc', ho, hch⟩ |
    ⟨hu, ho, hp, hi⟩
  · -- the buffer enters the queue, and its transfer is still to come
    rw [hpc] at hl
    have hb := h.flatMap_unscheduledOn (hl rfl) hc
    have ha := h.flatMap_unscheduledOn_set (hl rfl) hc hs
    rw [hpc] at hb
    rw [hpc'] at ha
    simp only [System.afterCall, engine, hch, ha]
    rw [hb] at hq
    simp only [Pc.unscheduled, append_nil] at hq
    rw [map_append, ← hq]
    rfl
  · -- the transfer follows
    rw [hpc] at hl
    have hb := h.flatMap_unscheduledOn (hl rfl) hc
    have ha := h.flatMap_unscheduledOn_set (hl rfl) hc hs
    rw [hpc] at hb
    rw [hpc'] at ha
    simp only [System.afterCall, engine, hch, ha]
    rw [hb] at hq
    obtain ⟨hle, hle', hl''⟩ := hco.popped_le c.stream
    rw [← hq, issue, drop_append_of_le_length (hle.trans (hle'.trans hl'')), map_append]
    simp [Pc.unscheduled, CopyTo.transfer, scheduleDmaTransfer]
  · -- the first buffer belongs to the first transfer that was not popped
    obtain ⟨hlt, -⟩ := out_ne_nil hco h hc next n hpc
    have hsa : (s.calls.set t (CopyTo.step t reply s.shared c).2).flatMap
        (unscheduledOn c.stream) = s.calls.flatMap (unscheduledOn c.stream) :=
      flatMap_set_of_eq hc (by simp [unscheduledOn, hs, hpc, hpc', Pc.unscheduled])
    simp only [System.afterCall, engine, hch, hsa]
    rw [ho, drop_eq_getElem_cons hlt, map_cons, map_cons, cons_append, List.cons.injEq] at hq
    exact hq.2
  · have hsa : (s.calls.set t (CopyTo.step t reply s.shared c).2).flatMap
        (unscheduledOn c.stream) = s.calls.flatMap (unscheduledOn c.stream) :=
      flatMap_set_of_eq hc (by simp [unscheduledOn, hs, hu])
    simp only [System.afterCall, engine, hsa, ho, hp, hi]
    exact hq

theorem Queued.afterCall (h : s.Queued) (hco : s.Counts) (hc : s.calls[t]? = some c)
    (reply : Reply) : (s.afterCall t reply c).Queued := by
  have hs := stream_step t reply s.shared c
  obtain ⟨hlo, hl'⟩ := lock_step t reply s.shared c (h.lock t c hc)
  refine ⟨exclusive_set (f := fun c : CopyTo => c.pc.hasLock) h.lock hlo hl', ?_, ?_⟩
  · refine forall_share_set (P := fun ch n => ch.cntr + n = ch.engine.issued.length) h.indexed hc
      hs (channel_step_of_ne t reply s.shared c) fun n n' hn ho => ?_
    have hl := indexed_step t reply s.shared c
    omega
  · refine forall_of_changed_at (P := fun st ch =>
      ((ch.engine.issued.drop ch.popped).map fun x => x.desc.addrHost) ++
        (s.afterCall t reply c).calls.flatMap (unscheduledOn st) = ch.out.map DMABuffer.addr)
      (channel_step_of_ne t reply s.shared c) (h.queue_afterCall hco hc reply) fun st hst => ?_
    have hsa : (s.afterCall t reply c).calls.flatMap (unscheduledOn st) =
        s.calls.flatMap (unscheduledOn st) :=
      flatMap_set_of_eq hc (by simp [unscheduledOn, hs, Ne.symm hst])
    rw [hsa]
    exact h.queue st

theorem queued_step (h : s.Queued) (hco : s.Counts) (a : Action) : (s.step a).Queued := by
  refine step_rule h (fun stream data ptr => ?_)
    (fun t reply c hc => h.afterCall hco hc reply) (fun stream f hf => ?_) a
  · refine ⟨exclusive_concat (f := fun c : CopyTo => c.pc.hasLock) h.lock rfl, fun st => ?_,
      fun st => ?_⟩
    · rw [step, total_share_concat]
      · exact h.indexed st
      · rfl
    · have hn : unscheduledOn st (CopyTo.new stream data ptr) = [] := by
        rw [unscheduledOn]
        exact ite_self _
      rw [step, flatMap_append, flatMap_singleton, hn, append_nil]
      exact h.queue st
  · refine ⟨h.lock, fun st => ?_, fun st => ?_⟩
    all_goals
      obtain ⟨e, he, hw⟩ := s.channel_onEngine stream hf st
      simp only [engine, he, hw.issued]
    · exact h.indexed st
    · exact h.queue st

end System

/-! ### Every buffer is in one place -/

theorem holding_step_cases (t : ℕ) (reply : Reply) (s : Shared) (c : CopyTo) :
    let s' := (step t reply s c).1
    let c' := (step t reply s c).2
    let out := (s.channel c.stream).out
    let out' := (s'.channel c.stream).out
    (s'.toDevBuffer = s.toDevBuffer ∧ out' = out ∧ s'.lost = s.lost ∧
      c'.pc.holding = c.pc.holding) ∨
    (∃ b, s.toDevBuffer = b :: s'.toDevBuffer ∧ out' = out ∧ s'.lost = s.lost ∧
      c.pc.holding = [] ∧ c'.pc.holding = [b]) ∨
    (∃ b, s'.toDevBuffer = s.toDevBuffer ∧ out' = out ∧ s'.lost = s.lost ++ [b] ∧
      c.pc.holding = [b] ∧ c'.pc.holding = []) ∨
    (∃ b, s'.toDevBuffer = s.toDevBuffer ∧ out' = out ++ [b] ∧ s'.lost = s.lost ∧
      c.pc.holding = [b] ∧ c'.pc.holding = []) ∨
    (∃ b, s'.toDevBuffer = s.toDevBuffer ∧ out = b :: out' ∧ s'.lost = s.lost ∧
      c.pc.holding = [] ∧ c'.pc.holding = [b]) ∨
    ∃ b, s'.toDevBuffer = s.toDevBuffer ++ [b] ∧ out' = out ∧ s'.lost = s.lost ∧
      c.pc.holding = [b] ∧ c'.pc.holding = [] := by
  fun_cases step t reply s c <;>
    simp_all [Shared.onChannel, goto, dropBuffer, Pc.holding]

namespace System

/-- The places where a buffer can be. -/
inductive Place where
  | pool
  | out (st : Bool)
  | call (t : ℕ)
  | lost
  deriving DecidableEq

def contents (s : System) : Place → List DMABuffer
  | .pool => s.shared.toDevBuffer
  | .out st => (s.shared.channel st).out
  | .call t => (s.calls[t]?).elim [] fun c => c.pc.holding
  | .lost => s.shared.lost

/-- Every buffer is in exactly one place. -/
def Owned (buffers : List DMABuffer) (s : System) : Prop :=
  ExactlyOne {b | b ∈ buffers} fun p => (s.contents p : Multiset DMABuffer)

variable {s : System}

theorem contents_call_afterCall (hc : s.calls[t]? = some c) (reply : Reply) :
    (s.afterCall t reply c).contents (.call t) = (CopyTo.step t reply s.shared c).2.pc.holding := by
  simp [contents, System.afterCall, lt_of_getElem? hc]

theorem contents_afterCall_eq (hc : s.calls[t]? = some c) (reply : Reply) {r : Place}
    (hp : r ≠ .pool ∨ (CopyTo.step t reply s.shared c).1.toDevBuffer = s.shared.toDevBuffer)
    (ho : r ≠ .out c.stream ∨ ((CopyTo.step t reply s.shared c).1.channel c.stream).out =
      (s.shared.channel c.stream).out)
    (hca : r ≠ .call t ∨ (CopyTo.step t reply s.shared c).2.pc.holding = c.pc.holding)
    (hl : r ≠ .lost ∨ (CopyTo.step t reply s.shared c).1.lost = s.shared.lost) :
    (s.afterCall t reply c).contents r = s.contents r := by
  cases r with
  | pool => exact hp.resolve_left (absurd rfl)
  | out st =>
    by_cases hs : st = c.stream
    · subst hs
      exact ho.resolve_left (absurd rfl)
    · exact congrArg Channel.out (channel_step_of_ne t reply s.shared c hs)
  | call u =>
    by_cases hut : u = t
    · subst hut
      rw [contents_call_afterCall hc, hca.resolve_left (absurd rfl), contents, hc]
      rfl
    · rw [contents, contents, System.afterCall, getElem?_set_ne (Ne.symm hut)]
  | lost => exact hl.resolve_left (absurd rfl)

theorem Owned.move {bufs : List DMABuffer} {s' : System} (h : s.Owned bufs) {p q : Place}
    {b : DMABuffer} (hpq : p ≠ q) (hp : (s.contents p).Perm (b :: s'.contents p))
    (hq : (s'.contents q).Perm (b :: s.contents q))
    (ho : ∀ r, r ≠ p → r ≠ q → s'.contents r = s.contents r) : s'.Owned bufs :=
  ExactlyOne.move h hpq (Multiset.coe_eq_coe.mpr hp) (Multiset.coe_eq_coe.mpr hq)
    fun r hr hrq => by rw [ho r hr hrq]

theorem Owned.afterCall {bufs : List DMABuffer} (h : s.Owned bufs) (hc : s.calls[t]? = some c)
    (reply : Reply) : (s.afterCall t reply c).Owned bufs := by
  have haf := contents_call_afterCall hc reply
  have hb : s.contents (.call t) = c.pc.holding := by rw [contents, hc]; rfl
  have hs {r : Place} := contents_afterCall_eq hc reply (r := r)
  rcases holding_step_cases t reply s.shared c with
    ⟨hpo, ho, hl, hh⟩ | ⟨b, hpo, ho, hl, hh, hh'⟩ |
    ⟨b, hpo, ho, hl, hh, hh'⟩ | ⟨b, hpo, ho, hl, hh, hh'⟩ |
    ⟨b, hpo, ho, hl, hh, hh'⟩ | ⟨b, hpo, ho, hl, hh, hh'⟩
  · have ha : (s.afterCall t reply c).contents = s.contents :=
      funext fun r => hs (.inr hpo) (.inr ho) (.inr hh) (.inr hl)
    rw [Owned, ha]
    exact h
  · refine h.move (p := .pool) (q := .call t) (by simp) (.of_eq hpo) (.of_eq ?_)
      fun r hp hq => hs (.inl hp) (.inr ho) (.inl hq) (.inr hl)
    rw [haf, hb, hh, hh']
  · refine h.move (p := .call t) (q := .lost) (b := b) (by simp) (.of_eq ?_) ?_
      fun r hp hq => hs (.inr hpo) (.inr ho) (.inl hp) (.inl hq)
    · rw [haf, hb, hh, hh']
    · exact (List.Perm.of_eq hl).trans (perm_append_singleton b _)
  · refine h.move (p := .call t) (q := .out c.stream) (b := b) (by simp) (.of_eq ?_) ?_
      fun r hp hq => hs (.inr hpo) (.inl hq) (.inl hp) (.inr hl)
    · rw [haf, hb, hh, hh']
    · exact (List.Perm.of_eq ho).trans (perm_append_singleton b _)
  · refine h.move (p := .out c.stream) (q := .call t) (by simp) (.of_eq ho) (.of_eq ?_)
      fun r hp hq => hs (.inr hpo) (.inl hp) (.inl hq) (.inr hl)
    rw [haf, hb, hh, hh']
  · refine h.move (p := .call t) (q := .pool) (b := b) (by simp) (.of_eq ?_) ?_
      fun r hp hq => hs (.inl hq) (.inr ho) (.inl hp) (.inr hl)
    · rw [haf, hb, hh, hh']
    · exact (List.Perm.of_eq hpo).trans (perm_append_singleton b _)

theorem contents_onEngine (s : System) (stream : Bool)
    (f : Engine (List Byte) → Engine (List Byte)) :
    (s.onEngine stream f).contents = s.contents := by
  have ho : ∀ st, ((s.onEngine stream f).shared.channel st).out = (s.shared.channel st).out :=
    forall_channel_onEngine (P := fun st ch => ch.out = (s.shared.channel st).out)
      (fun _ => rfl) rfl
  funext r
  cases r with
  | out st => exact ho st
  | _ => rfl

theorem owned_step {bufs : List DMABuffer} (h : s.Owned bufs) (a : Action) :
    (s.step a).Owned bufs := by
  refine step_rule h (fun stream data ptr => ?_) (fun t reply c hc => h.afterCall hc reply)
    (fun stream f _ => ?_) a
  · have ha : (s.step (.call stream data ptr)).contents = s.contents := by
      funext r
      cases r with
      | call u => exact elim_concat rfl s.calls u
      | _ => rfl
    rw [Owned, ha]
    exact h
  · rw [Owned, contents_onEngine]
    exact h

end System

/-! ### A call waits for its transfers -/

section

variable (t : ℕ) (reply : Reply) (s : Shared) (c : CopyTo)

theorem highestUsed_step :
    c.pc = .count ∧ (step t reply s c).2.highestUsed = (s.channel c.stream).cntr ∨
      c.pc ≠ .count ∧ (step t reply s c).2.highestUsed = c.highestUsed := by
  fun_cases step t reply s c <;> simp_all [goto, dropBuffer]

theorem returned_step (h : (step t reply s c).2.pc = .returned (.ok ())) :
    (step t reply s c).2.highestUsed = c.highestUsed ∧
      (c.pc = .returned (.ok ()) ∨ c.highestUsed < (s.channel c.stream).intCntr) := by
  revert h
  fun_cases step t reply s c <;> simp_all [goto, dropBuffer]

theorem intCntr_le_step : (s.channel c.stream).intCntr ≤
    ((step t reply s c).1.channel c.stream).intCntr := by
  fun_cases step t reply s c <;> simp [Shared.onChannel, dropBuffer]

theorem issued_step_cases :
    (∃ a, c.pc = .schedule a ∧ (step t reply s c).2.pc = .count ∧
      ((step t reply s c).1.channel c.stream).engine.issued =
        (s.channel c.stream).engine.issued ++ [c.transfer s t a]) ∨
    ((step t reply s c).1.channel c.stream).engine.issued = (s.channel c.stream).engine.issued := by
  rcases queue_step_cases t reply s c with
    ⟨b, -, -, hc⟩ | ⟨a, hpc, hpc', hc⟩ | ⟨next, n, b, rest, -, -, -, hc⟩ | ⟨-, -, -, hi⟩
  · exact .inr (by rw [hc])
  · exact .inl ⟨a, hpc, hpc', by rw [hc]; rfl⟩
  · exact .inr (by rw [hc])
  · exact .inr hi

end

namespace System

/-- The call that issued a transfer knows its number, and it does not return before the
interrupt is counted. -/
structure Awaited (s : System) : Prop where
  owner : ∀ st i x, (s.engine st).issued[i]? = some x →
    ∃ c, s.calls[x.owner]? = some c ∧ c.stream = st ∧
      (i ≤ c.highestUsed ∨ c.pc = .count ∧ i + 1 = (s.engine st).issued.length)
  returned : ∀ (t : ℕ) (c : CopyTo), s.calls[t]? = some c → c.pc = .returned (.ok ()) →
    c.highestUsed < (s.shared.channel c.stream).intCntr

variable {s : System}

theorem Queued.cntr_of_count (h : s.Queued) (hc : s.calls[t]? = some c) (hpc : c.pc = .count) :
    (s.shared.channel c.stream).cntr + 1 = (s.engine c.stream).issued.length := by
  have hl : s.shared.lock = some t := h.lock t c hc (by rw [hpc]; rfl)
  have ht : total (share CopyTo.stream c.stream fun c => c.pc.uncounted) s.calls = 1 := by
    rw [total_share_of_unique hc fun u d hut hd => ?_, hpc]
    · rfl
    · cases hd' : d.pc with
      | count =>
        have hu : s.shared.lock = some u := h.lock u d hd (by rw [hd']; rfl)
        exact absurd (Option.mem_unique hu hl) hut
      | _ => rfl
  have hi := h.indexed c.stream
  omega

theorem getElem?_afterCall_of_ne (s : System) {u : ℕ} (reply : Reply) (c : CopyTo)
    (hut : u ≠ t) : (s.afterCall t reply c).calls[u]? = s.calls[u]? :=
  getElem?_set_ne (Ne.symm hut)

theorem getElem?_afterCall_self (hc : s.calls[t]? = some c) (reply : Reply) :
    (s.afterCall t reply c).calls[t]? = some (CopyTo.step t reply s.shared c).2 :=
  getElem?_set_self (lt_of_getElem? hc)

theorem Awaited.owner_afterCall (h : s.Awaited) (hq : s.Queued) (hc : s.calls[t]? = some c)
    (reply : Reply) {i : ℕ} {x : Transfer}
    (hx : ((s.afterCall t reply c).engine c.stream).issued[i]? = some x) :
    ∃ d, (s.afterCall t reply c).calls[x.owner]? = some d ∧ d.stream = c.stream ∧
      (i ≤ d.highestUsed ∨ d.pc = .count ∧
        i + 1 = ((s.afterCall t reply c).engine c.stream).issued.length) := by
  have hs := getElem?_afterCall_self hc reply
  have hst := stream_step t reply s.shared c
  -- a transfer that was there before
  have ho : ∀ y, (s.engine c.stream).issued[i]? = some y →
      ((∃ a, c.pc = .schedule a) ∨ ((s.afterCall t reply c).engine c.stream).issued =
          (s.engine c.stream).issued) →
      ∃ d, (s.afterCall t reply c).calls[y.owner]? = some d ∧ d.stream = c.stream ∧
        (i ≤ d.highestUsed ∨ d.pc = .count ∧
          i + 1 = ((s.afterCall t reply c).engine c.stream).issued.length) := by
    intro y hy hi
    obtain ⟨d, hd, hds, hn⟩ := h.owner c.stream i y hy
    by_cases hyt : y.owner = t
    · rw [hyt, hc, Option.some.injEq] at hd
      subst hd
      refine ⟨_, hyt ▸ hs, hst, .inl ?_⟩
      have hlt := lt_of_getElem? hy
      rcases highestUsed_step t reply s.shared c with ⟨hpc, hh⟩ | ⟨hpc, hh⟩ <;> rw [hh]
      · have hcn := hq.cntr_of_count hc hpc
        omega
      · exact hn.resolve_right fun hco => hpc hco.1
    · refine ⟨d, (getElem?_afterCall_of_ne s reply c hyt).trans hd, hds, ?_⟩
      refine hn.imp id fun ⟨hco, hl⟩ => ⟨hco, ?_⟩
      -- the owner has the lock, so this call does not issue anything
      have hlo : s.shared.lock = some y.owner := hq.lock _ d hd (by rw [hco]; rfl)
      rcases hi with ⟨a, hpc⟩ | hi
      · have hl' : s.shared.lock = some t := hq.lock t c hc (by rw [hpc]; rfl)
        exact absurd (Option.mem_unique hlo hl') hyt
      · rw [hi]
        exact hl
  rcases issued_step_cases t reply s.shared c with ⟨a, hpc, hpc', hi⟩ | hi
  · rw [System.afterCall, hi] at hx
    rcases getElem?_concat_cases hx with ⟨rfl, rfl⟩ | hx
    · refine ⟨_, hs, hst, .inr ⟨hpc', ?_⟩⟩
      rw [System.afterCall, hi, length_append]
      rfl
    · exact ho x hx (.inl ⟨a, hpc⟩)
  · rw [System.afterCall, hi] at hx
    exact ho x hx (.inr hi)

theorem Awaited.afterCall (h : s.Awaited) (hq : s.Queued) (hc : s.calls[t]? = some c)
    (reply : Reply) : (s.afterCall t reply c).Awaited := by
  constructor
  · refine forall_of_changed_at (P := fun st ch => ∀ i x, ch.engine.issued[i]? = some x →
      ∃ d, (s.afterCall t reply c).calls[x.owner]? = some d ∧ d.stream = st ∧
        (i ≤ d.highestUsed ∨ d.pc = .count ∧ i + 1 = ch.engine.issued.length))
      (channel_step_of_ne t reply s.shared c) (fun i x hx => h.owner_afterCall hq hc reply hx)
      fun st hs i x hx => ?_
    obtain ⟨d, hd, hds, hn⟩ := h.owner st i x hx
    have hne : x.owner ≠ t := by
      rintro rfl
      rw [hc, Option.some.injEq] at hd
      exact hs (hd ▸ hds.symm)
    exact ⟨d, (getElem?_afterCall_of_ne s reply c hne).trans hd, hds, hn⟩
  · intro u d hd hr
    have hle := intCntr_le_step t reply s.shared c
    rcases getElem?_set_cases hd with ⟨rfl, rfl⟩ | ⟨hut, hd⟩
    · rw [stream_step]
      obtain ⟨hh, hca⟩ := returned_step u reply s.shared c hr
      rw [hh]
      exact lt_of_lt_of_le (hca.elim (h.returned u c hc) id) hle
    · have hb := h.returned u d hd hr
      by_cases hs : d.stream = c.stream
      · rw [hs] at hb ⊢
        exact lt_of_lt_of_le hb hle
      · rw [System.afterCall, channel_step_of_ne t reply s.shared c hs]
        exact hb

theorem awaited_step (h : s.Awaited) (hq : s.Queued) (a : Action) : (s.step a).Awaited := by
  refine step_rule h (fun stream data ptr => ⟨fun st i x hx => ?_, fun u d hd hr => ?_⟩)
    (fun t reply c hc => h.afterCall hq hc reply)
    (fun stream f hf => ⟨fun st i x hx => ?_, fun u d hd hr => ?_⟩) a
  · obtain ⟨d, hd, hre⟩ := h.owner st i x hx
    exact ⟨d, getElem?_concat_of_some hd _, hre⟩
  · rcases getElem?_concat_cases hd with ⟨-, rfl⟩ | hd
    · exact absurd hr (by simp [CopyTo.new])
    · exact h.returned u d hd hr
  · obtain ⟨e, he, hw⟩ := s.channel_onEngine stream hf st
    simp only [engine, he, hw.issued] at hx ⊢
    exact h.owner st i x hx
  · obtain ⟨e, he, -⟩ := s.channel_onEngine stream hf d.stream
    rw [he]
    exact h.returned u d hd hr

end System

end Tapasco.CopyTo
