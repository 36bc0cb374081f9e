import Tapasco.JobPasses

/-!
# Jobs Seen from the Scheduler

For the scheduler a job is a place where a PE is. This module says what `handOver` and
`tryHandOver` do up to the moment the PE is back in its queue, and that no other method of a
job exchanges its PE.
-/

open Exec

namespace Tapasco

/-- What makes a PE the one it is: its number and its type. -/
def PE.ident (pe : PE) : ℕ × PEId :=
  (pe.id, pe.typeId)

/-- The PE after its job: idle, and with its notes taken. -/
def PE.rested (pe : PE) : PE :=
  { pe with active := false, copyBack := none }

theorem PE.tryRelease_cases (pe : PE) (returnValue : Bool) (irq : InterruptReply) (r : ByteMem) :
    (pe.active = true ∧ irq = .ok 0) ∧ pe.tryRelease returnValue irq r = (.ok none, pe, r) ∨
      pe.tryRelease returnValue irq r =
        ((pe.release returnValue irq r).1.map some, (pe.release returnValue irq r).2) := by
  obtain ⟨id, typeId, offset, active, cb, lm, irqId, svm⟩ := pe
  cases active with
  | false => exact .inr rfl
  | true =>
    match irq with
    | .error _ | .ok (_ + 1) => exact .inr rfl
    | .ok 0 => exact .inl ⟨⟨rfl, rfl⟩, rfl⟩

namespace Job

variable {σ : Type}

/-! ### The two parts of a release -/

theorem giveBack_then {α β : Type} (releasePe : Bool) (a : α) (k : α → JobM σ β) (s : JobState σ) :
    ((do
      if releasePe then giveBack
      pure a : JobM σ α) >>= k) s =
      (do
        if releasePe then giveBack
        k a : JobM σ β) s := by
  cases releasePe with
  | false => rfl
  | true => exact bind_assoc_apply giveBack (fun _ => pure a) k s

section

variable [Allocator σ] (irq : InterruptReply) (releasePe returnValue : Bool)

omit [Allocator σ] in
/-- An attempt finds the PE running, or it hands the PE over. -/
theorem tryHandOver_cases (s : JobState σ) :
    (∃ pe, s.pe = some pe ∧ pe.active = true ∧ irq = .ok 0) ∧
        tryHandOver irq releasePe returnValue s = (.ok none, s) ∨
      tryHandOver irq releasePe returnValue s =
        (do
          let work ← handOver irq releasePe returnValue
          pure (some work)) s := by
  obtain ⟨_ | pe, sched, world⟩ := s
  · exact .inr rfl
  obtain ⟨ha, h⟩ | h := pe.tryRelease_cases returnValue irq world.registers
  · exact .inl ⟨⟨pe, rfl, ha⟩, by simp only [tryHandOver, h]⟩
  · refine .inr ?_
    dsimp only [bind, tryHandOver, handOver]
    rw [h]
    rcases pe.release returnValue irq world.registers with ⟨_ | work, pe', r⟩
    · rfl
    · exact (giveBack_then releasePe work (fun work => pure (some work)) _).symm

/-- An attempt finds the PE running, or it is a release. -/
theorem tryRelease_cases (s : JobState σ) :
    (∃ pe, s.pe = some pe ∧ pe.active = true ∧ irq = .ok 0) ∧
        tryRelease irq releasePe returnValue s = (.ok none, s) ∨
      tryRelease irq releasePe returnValue s =
        (do
          let r ← release irq releasePe returnValue
          pure (some r)) s := by
  rw [tryRelease]
  obtain ⟨ha, h⟩ | h := tryHandOver_cases irq releasePe returnValue s
  · exact .inl ⟨ha, bind_of_ok h⟩
  · refine .inr ?_
    rw [bind_congr_apply h, release, bind_assoc_apply, bind_assoc_apply]
    rfl

/-! ### Futures -/

/-- What `getCallback` of `tapasco.hpp` gives a `JobFuture` to call: wait for the PE, or only try to
release it. `none` is the answer that the PE still runs. The memory of the job itself, which only
`tapasco_job_release` frees, is not part of the state. -/
def callback (block : Bool) : JobM σ (Option (ℕ × List Buffer)) :=
  if block then do
    let r ← release irq true returnValue
    pure (some r)
  else tryRelease irq true returnValue

/-- A client calls the future until the PE is done. -/
def poll : List (Bool × InterruptReply) → JobM σ (Option (ℕ × List Buffer))
  | [] => pure none
  | (block, irq) :: calls => do
    match ← callback irq returnValue block with
    | none => poll calls
    | some r => pure (some r)

/-- A call finds the PE running and changes nothing, or it does what waiting for the PE does. -/
theorem callback_cases (block : Bool) (n m : ℕ) (s : JobState σ) :
    n = 0 ∧ callback (.ok n) returnValue block s = (.ok none, s) ∨
      callback (.ok n) returnValue block s = callback (.ok m) returnValue true s := by
  have hn : callback (.ok n) returnValue true s = callback (.ok m) returnValue true s := by
    obtain ⟨_ | ⟨id, typeId, offset, active, cb, lm, irqId, svm⟩, sched, world⟩ := s
    · rfl
    · cases active <;> rfl
  cases block with
  | true => exact .inr hn
  | false =>
    obtain ⟨⟨_, -, -, h0⟩, h⟩ | h := tryRelease_cases (.ok n) true returnValue s
    · exact .inl ⟨Except.ok.inj h0, h⟩
    · exact .inr (h.trans hn)

/-- **Polling a future** any number of times while the PE runs, and then once more when it is done,
has the result and the effect of one call that waits. -/
theorem poll_eq_callback (k : ℕ) (block : Bool) (n : ℕ) (s : JobState σ) :
    poll returnValue (List.replicate k (false, .ok 0) ++ [(block, .ok (n + 1))]) s =
      callback (.ok (n + 1)) returnValue true s := by
  have hwait : ∀ calls, (callback (.ok (n + 1)) returnValue true >>= fun
      | none => poll returnValue calls
      | some r => pure (some r)) s = callback (.ok (n + 1)) returnValue true s := by
    intro calls
    simp only [callback, if_true]
    rw [bind_assoc_apply]
    rfl
  induction k with
  | zero =>
    obtain ⟨h, -⟩ | h := callback_cases returnValue block (n + 1) (n + 1) s
    · simp at h
    · exact (bind_congr_apply h _).trans (hwait [])
  | succ k ih =>
    obtain ⟨-, h⟩ | h := callback_cases returnValue false 0 (n + 1) s
    · exact (bind_of_ok h).trans ih
    · exact (bind_congr_apply h _).trans (hwait _)

end

/-! ### What a hand-over does -/

theorem release_of_ok (pe : PE) (returnValue : Bool) (n : ℕ) (regs : ByteMem) :
    ∃ rv r, pe.release returnValue (.ok n) regs = (.ok (rv, pe.copyBack), pe.rested, r) := by
  cases ha : pe.active with
  | true =>
    simp only [PE.release, PE.waitForCompletion, ha, if_true, PE.getCopyback]
    exact ⟨_, _, rfl⟩
  | false =>
    simp only [PE.release, PE.waitForCompletion, ha, Bool.false_eq_true, if_false,
      PE.getCopyback, PE.rested]
    exact ⟨_, _, rfl⟩

theorem handOver_of_some {s : JobState σ} {pe : PE} (hp : s.pe = some pe) (n : ℕ)
    (releasePe returnValue : Bool) :
    ∃ (rv : ℕ) (r : ByteMem), handOver (.ok n) releasePe returnValue s =
      (do
        if releasePe then giveBack
        pure (rv, pe.copyBack))
        { s with pe := some pe.rested, world := { s.world with registers := r } } := by
  obtain ⟨rv, r, hr⟩ := release_of_ok pe returnValue n s.world.registers
  refine ⟨rv, r, ?_⟩
  simp only [handOver, hp, hr]

/-! ### The passes and frames -/

section

variable {F : Frame (JobState σ)} (hsafe : ∀ s, F.safe s → s.pe ≠ none)

include hsafe

theorem obeys_thePe : F.Obeys (thePe (σ := σ)) := by
  intro s
  rw [thePe]
  cases hp : s.pe with
  | none => exact ⟨F.refl s, fun hs => absurd hp (hsafe s hs)⟩
  | some pe => exact ⟨F.refl s, fun _ => by simp⟩

theorem obeys_localArg (arg : PEParameter) : F.Obeys (localArg (σ := σ) arg) := by
  cases arg with
  | dataTransferLocal x =>
    refine obeys_bind (obeys_thePe hsafe) fun pe => ?_
    cases pe.localMemory with
    | none => exact obeys_fail _
    | some m => exact obeys_pure _
  | _ => exact obeys_pure _

theorem obeys_allocateArg [Allocator σ] (hworld : ∀ s w, F.rel s { s with world := w })
    (arg : PEParameter) : F.Obeys (allocateArg (σ := σ) arg) := by
  have hw : ∀ m (f : σ → Except AllocatorError DeviceAddress × σ),
      F.Obeys (withAllocator m f) := by
    intro m f s
    rw [withAllocator]
    split
    · exact ⟨F.refl s, fun _ => by simp⟩
    · rcases f (s.world.allocator m) with ⟨e | a, al⟩ <;> exact ⟨hworld s _, fun _ => by simp⟩
  cases arg with
  | dataTransferAlloc x =>
    refine obeys_bind (obeys_bind (obeys_thePe hsafe) fun pe => ?_) fun a => obeys_pure _
    split
    · exact obeys_pure _
    · cases x.fixed <;> exact hw _ _
  | _ => exact obeys_pure _

variable (hworld : ∀ s w, w.allocator = s.world.allocator → F.rel s { s with world := w })

include hworld

theorem obeys_writeArg (i : ℕ) (arg : PEParameter) : F.Obeys (writeArg (σ := σ) i arg) := by
  refine obeys_bind (obeys_thePe hsafe) fun pe s => ?_
  match pe.setArg i arg s.world.registers with
  | (.ok (), r) => exact ⟨hworld s _ rfl, fun _ => by simp⟩
  | (.error e, r) => exact ⟨hworld s _ rfl, fun _ => by simp⟩

theorem obeys_setArguments (i : ℕ) (args : List PEParameter) :
    F.Obeys (setArguments (σ := σ) i args) := by
  induction args generalizing i with
  | nil => exact obeys_pure _
  | cons arg args ih =>
    refine obeys_bind ?_ fun _ => ih (i + 1)
    cases arg with
    | single32 _ | single64 _ | deviceAddress _ => exact obeys_writeArg hsafe hworld i _
    | virtualAddress p =>
      refine obeys_bind (obeys_thePe hsafe) fun pe => ?_
      split
      · exact obeys_writeArg hsafe hworld i _
      · exact obeys_fail _
    | _ => exact obeys_fail _

variable (hnote : ∀ s pe c, s.pe = some pe → F.rel s { s with pe := some (pe.addCopyback c) })

include hnote

omit hworld in
theorem obeys_addCopyback (c : CopyBack) : F.Obeys (addCopyback (σ := σ) c) := by
  intro s
  cases hp : s.pe with
  | none =>
    have hpa : addCopyback c s = (.panic, s) := bind_of_panic (by rw [thePe, hp])
    rw [hpa]
    exact ⟨F.refl s, fun hs => absurd hp (hsafe s hs)⟩
  | some pe =>
    rw [addCopyback_of_some hp]
    exact ⟨hnote s pe c hp, fun _ => by simp⟩

omit hworld in
theorem obeys_noteTransfer (x : DataTransferPrealloc) : F.Obeys (noteTransfer (σ := σ) x) := by
  have ha : ∀ (c : CopyBack) (l : List Buffer),
      F.Obeys (do addCopyback c; pure l : JobM σ (List Buffer)) := fun c l =>
    obeys_bind (obeys_addCopyback hsafe hnote c) fun _ => obeys_pure l
  refine obeys_bind (obeys_thePe hsafe) fun pe => ?_
  split
  · exact ha _ _
  · split
    · exact ha _ _
    · split
      · exact ha _ _
      · exact obeys_pure _

theorem obeys_transferArg (arg : PEParameter) : F.Obeys (transferArg (σ := σ) arg) := by
  cases arg with
  | dataTransferPrealloc x =>
    have hre : F.Obeys (do
        let unused ← noteTransfer x
        pure (PEParameter.deviceAddress x.deviceAddress, unused) :
          JobM σ (PEParameter × List Buffer)) :=
      obeys_bind (obeys_noteTransfer hsafe hnote x) fun _ => obeys_pure _
    rw [transferArg]
    split
    · refine obeys_bind (fun s => ?_) fun _ => hre
      cases hr : s.world.env.copyTo s.world.copyTos <;> simp only [copyTo, hr] <;>
        exact ⟨hworld s _ rfl, fun _ => by simp⟩
    · exact hre
  | _ => exact obeys_pure _

omit hworld in
theorem obeys_handleStreamTransfers (c2h h2c : Bool) (args : List PEParameter) :
    F.Obeys (handleStreamTransfers (σ := σ) c2h h2c args) := by
  induction args generalizing c2h h2c with
  | nil => exact obeys_pure _
  | cons arg args ih =>
    cases arg with
    | dataTransferStream x =>
      rw [handleStreamTransfers]
      by_cases hm : (if x.c2h = true then c2h else h2c) = true
      · rw [if_pos hm]
        exact obeys_bind (obeys_addCopyback hsafe hnote _) fun _ => ih _ _
      · rw [if_neg hm]
        exact obeys_fail _
    | _ => exact obeys_bind (ih c2h h2c) fun _ => obeys_pure _

end

/-! ### A launch keeps the PE -/

/-- The PE of a job, as far as the scheduler knows it, and the queue it goes back to. -/
def custody (s : JobState σ) : Option (ℕ × PEId) × JobScheduler :=
  (s.pe.map PE.ident, s.scheduler)

theorem custody_addCopyback (s : JobState σ) (pe : PE) (c : CopyBack) (hp : s.pe = some pe) :
    custody { s with pe := some (pe.addCopyback c) } = custody s := by
  rw [custody, custody, hp]
  rfl

theorem custody_startPe (s : JobState σ) : custody (startPe s).2 = custody s := by
  cases hp : s.pe with
  | none =>
    have hs : startPe s = (.panic, s) := bind_of_panic (by rw [thePe, hp])
    rw [hs]
  | some pe =>
    rw [startPe_eq hp]
    split
    · rfl
    · rw [custody, custody, hp]
      rfl

/-- **A launch**, whether it succeeds or not, keeps the PE and the queues. -/
theorem custody_start [Allocator σ] (args : List PEParameter) (s : JobState σ) :
    custody (start args s).2 = custody s := by
  have hsafe : ∀ s, (Frame.same custody).safe s → (s : JobState σ).pe ≠ none := fun _ => False.elim
  have ho : (Frame.same custody).Obeys (start (σ := σ) args) := by
    refine obeys_bind ?_ fun _ =>
      obeys_bind (fun s => ⟨custody_startPe s, False.elim⟩) fun _ => obeys_pure _
    refine obeys_bind (obeys_collect fun arg _ => obeys_localArg hsafe arg) fun args₁ => ?_
    refine obeys_bind (obeys_collect fun arg _ => obeys_allocateArg hsafe (fun _ _ => rfl) arg)
      fun args₂ => ?_
    refine obeys_bind (obeys_bind (obeys_collect fun arg _ => obeys_transferArg hsafe
      (fun _ _ _ => rfl) custody_addCopyback arg) fun _ => obeys_pure _) fun r => ?_
    refine obeys_bind (obeys_handleStreamTransfers hsafe custody_addCopyback _ _ _) fun args₄ => ?_
    exact obeys_bind (obeys_setArguments hsafe (fun _ _ _ => rfl) 0 args₄) fun _ => obeys_pure _
  exact (ho s).1

end Job

end Tapasco
