import Tapasco.JobHandOver

/-!
# The Clients of the Scheduler

Any number of threads acquire PEs, run jobs on them and give them back, while other threads reset
the interrupts of the idle PEs. This module is the transition system of all of them. An action is a
piece of a call that makes one operation on a queue, with the computation on the thread's own data
around it; a call with several queue operations (`SinglePEHandler::release_pe`, `reset_interrupts`)
and the copy-back at the end of a release are several actions, between which other threads run. An
action that is not possible leaves the state as it is.

What a call meets outside of the scheduler, the answers of allocators, DMA engine and
interrupts, comes with the action. Reads of interrupts do not fail.
-/

namespace Tapasco

/-- Where the PE of a job goes back to: the scheduler of the device, or the queue of a
single-PE handler. -/
inductive Home where
  | main
  | single (h : ℕ)
  deriving DecidableEq

/-- A job: its PE, and the notes of an earlier PE number that a release in progress still
has to carry out. -/
structure JobSlot where
  pe : Option PE
  home : Home
  notes : List CopyBack
  notesOf : ℕ

/-- A `SinglePEHandler`, whose queue is with the shared objects: it is in use, or `released`, and
then its `release_pe` waits for the PE, has it in its hands, or is done. -/
inductive SinglePEHandler where
  | inUse
  | taking
  | putting (pe : PE)
  | done

/-- A `reset_interrupts` in progress: the types it still has to visit, the one it is at
first; the PEs it took out of its queue; whether it still takes PEs out. -/
structure Reset where
  types : List PEId
  removePes : List PE
  draining : Bool

/-- The scheduler and its clients. For the record: the errors that `release_pe` and
`reset_interrupts` returned so far, and the notes that releases took from PEs and that have not been
carried out. -/
structure System where
  scheduler : Scheduler
  jobs : ℕ → Option JobSlot
  singles : ℕ → SinglePEScheduler
  handlers : ℕ → Option SinglePEHandler
  resets : ℕ → Option Reset
  failures : List SchedulerError
  outstanding : List (ℕ × CopyBack)

/-- The actions. `j`, `h` and `r` name a job, a handler and a reset. -/
inductive Action (σ : Type) where
  /-- One attempt of `acquire_pe` or `try_acquire_pe` to take a PE for a new job. -/
  | acquirePe (id : PEId) (j : ℕ)
  /-- One attempt of `acquire_single_pe_scheduler` to take a PE for a new handler. -/
  | acquireSinglePe (id : PEId) (h : ℕ)
  /-- One attempt of a handler's `acquire_pe` to take the PE for a new job. -/
  | createJob (h j : ℕ)
  /-- A handler's `release_pe` is called. -/
  | releaseHandler (h : ℕ)
  /-- One attempt of a handler's `release_pe` to take the PE. -/
  | takeFromHandler (h : ℕ)
  /-- A handler's `release_pe` gives the PE back. -/
  | putFromHandler (h : ℕ)
  /-- `Job::start`. -/
  | start (j : ℕ) (args : List PEParameter) (w : World σ)
  /-- `Job::release` up to the copy-back. -/
  | release (j irq : ℕ) (releasePe returnValue : Bool) (w : World σ)
  /-- `Job::try_release` up to the copy-back. -/
  | tryRelease (j irq : ℕ) (releasePe returnValue : Bool) (w : World σ)
  /-- The drop of a job up to the copy-back. -/
  | drop (j irq : ℕ) (w : World σ)
  /-- One note of a copy-back. -/
  | copyBack (j : ℕ) (w : World σ)
  /-- `reset_interrupts` is called; the map yields its entries in this order. -/
  | resetInterrupts (r : ℕ) (order : List PEId)
  /-- `reset_interrupts` takes a PE out and resets it, or stops taking if the attempt
  fails (`retry`) or finds nothing. -/
  | resetSteal (r : ℕ) (retry : Bool) (registers : ByteMem)
  /-- `reset_interrupts` puts a PE back, or goes on to the next type. -/
  | resetReturn (r : ℕ)

namespace System

variable {σ : Type}

def init (scheduler : Scheduler) : System where
  scheduler
  jobs := fun _ => none
  singles := fun _ => ⟨[], none⟩
  handlers := fun _ => none
  resets := fun _ => none
  failures := []
  outstanding := []

/-- A job as its methods see it. -/
def jobState (s : System) (slot : JobSlot) (w : World σ) : JobState σ where
  pe := slot.pe
  scheduler :=
    match slot.home with
    | .main => .main s.scheduler
    | .single h => .single (s.singles h)
  world := w

def setSingle (s : System) (h : ℕ) (q : SinglePEScheduler) : System :=
  { s with singles := Function.update s.singles h q }

/-- The queues after a method of a job. -/
def setQueue (s : System) (home : Home) (scheduler : JobScheduler) : System :=
  match home, scheduler with
  | .main, .main q => { s with scheduler := q }
  | .single h, .single q => s.setSingle h q
  | _, _ => s

def setJob (s : System) (j : ℕ) (slot : JobSlot) : System :=
  { s with jobs := Function.update s.jobs j (some slot) }

def setHandler (s : System) (h : ℕ) (hd : SinglePEHandler) : System :=
  { s with handlers := Function.update s.handlers h (some hd) }

/-- Notes taken from a PE are outstanding. -/
def owe (s : System) (id : ℕ) (notes : List CopyBack) : System :=
  { s with outstanding := s.outstanding ++ notes.map fun c => (id, c) }

/-! ### Taking PEs out of queues -/

/-- A new job takes a PE from the scheduler. -/
def acquirePe (s : System) (id : PEId) (j : ℕ) : System :=
  match s.jobs j, s.scheduler.doAcquirePe id with
  | none, (.ok (some pe), q) => { s with scheduler := q }.setJob j ⟨some pe, .main, [], 0⟩
  | _, _ => s

/-- A new handler takes a PE from the scheduler and puts it into a queue of its own. -/
def acquireSinglePe (s : System) (id : PEId) (h : ℕ) : System :=
  match s.handlers h, s.scheduler.doAcquirePe id with
  | none, (.ok (some pe), q) =>
    ({ s with scheduler := q }.setSingle h (SinglePEScheduler.new pe)).setHandler h .inUse
  | _, _ => s

/-- A new job takes the PE of a handler that is not released. -/
def createJob (s : System) (h j : ℕ) : System :=
  match s.handlers h, s.jobs j, (s.singles h).acquirePe with
  | some .inUse, none, (some pe, q) =>
    (s.setSingle h q).setJob j ⟨some pe, .single h, [], 0⟩
  | _, _, _ => s

/-! ### Releasing a handler -/

/-- A handler is marked as released, once. -/
def releaseHandler (s : System) (h : ℕ) : System :=
  match s.handlers h with
  | some .inUse => s.setHandler h .taking
  | _ => s

/-- Its PE is taken out of its queue. -/
def takeFromHandler (s : System) (h : ℕ) : System :=
  match s.handlers h, (s.singles h).acquirePe with
  | some .taking, (some pe, q) => (s.setSingle h q).setHandler h (.putting pe)
  | _, _ => s

/-- The PE is given back to the scheduler. -/
def putFromHandler (s : System) (h : ℕ) : System :=
  match s.handlers h with
  | some (.putting pe) =>
    match s.scheduler.releasePe pe with
    | (.ok (), q) => { s with scheduler := q }.setHandler h .done
    | (.error e, q) =>
      { s with scheduler := q, failures := s.failures ++ [e] }.setHandler h .done
  | _ => s

/-! ### Methods of jobs -/

/-- A call on a job that no other call is using. -/
def onJob (s : System) (j : ℕ) (f : JobSlot → System) : System :=
  match s.jobs j with
  | some slot => if slot.notes = [] then f slot else s
  | none => s

def start [Allocator σ] (s : System) (j : ℕ) (args : List PEParameter) (w : World σ) : System :=
  s.onJob j fun slot => s.setJob j { slot with pe := (Job.start args (s.jobState slot w)).2.pe }

/-- The system after the first part of a release: the PE is where the method left it, and the notes
it returned are still to be carried out. -/
def afterHandOver (s : System) (j : ℕ) (slot : JobSlot)
    (r : Outcome JobError (Option (ℕ × Option (List CopyBack))) × JobState σ) : System :=
  let s' := s.setQueue slot.home r.2.scheduler
  let slot' := { slot with pe := r.2.pe }
  match r.1 with
  | .ok (some (_, copyback)) =>
    let notes := copyback.getD []
    let notesOf := (slot.pe.map PE.id).getD 0
    (s'.owe notesOf notes).setJob j { slot' with notes, notesOf }
  | .err (.schedulerError e) => { s' with failures := s.failures ++ [e] }.setJob j slot'
  | _ => s'.setJob j slot'

/-- `Job::release` up to the copy-back. -/
def release (s : System) (j irq : ℕ) (releasePe returnValue : Bool) (w : World σ) : System :=
  s.onJob j fun slot =>
    s.afterHandOver j slot ((do
      let work ← Job.handOver (.ok irq) releasePe returnValue
      pure (some work)) (s.jobState slot w))

/-- `Job::try_release` up to the copy-back. -/
def tryRelease (s : System) (j irq : ℕ) (releasePe returnValue : Bool) (w : World σ) : System :=
  s.onJob j fun slot =>
    s.afterHandOver j slot
      (Job.tryHandOver (.ok irq) releasePe returnValue (s.jobState slot w))

/-- One note of a copy-back; if it fails, the rest is given up. -/
def copyBack [Allocator σ] (s : System) (j : ℕ) (w : World σ) : System :=
  match s.jobs j with
  | some slot =>
    match slot.notes with
    | note :: rest =>
      match (Job.copyBackOne note (s.jobState slot w)).1 with
      | .ok _ =>
        { s with outstanding := s.outstanding.erase (slot.notesOf, note) }.setJob j
          { slot with notes := rest }
      | _ => s.setJob j { slot with notes := [] }
    | [] => s
  | none => s

/-! ### Resetting interrupts -/

def setReset (s : System) (r : ℕ) (x : Option Reset) : System :=
  { s with resets := Function.update s.resets r x }

/-- The loop over the entries of the map begins. -/
def resetInterrupts (s : System) (r : ℕ) (order : List PEId) : System :=
  match s.resets r with
  | none => s.setReset r (some ⟨order, [], true⟩)
  | some _ => s

/-- A PE is taken out and reset, or the taking ends; an error of the PE ends the call. Of the
accesses to the PE only `enable_interrupt` can fail. -/
def resetSteal (s : System) (r : ℕ) (retry : Bool) (registers : ByteMem) : System :=
  match s.resets r with
  | some ⟨t :: ts, removePes, true⟩ =>
    match retry, s.scheduler.doAcquirePe t with
    | false, (.ok (some pe), q) =>
      match (pe.enableInterrupt registers).1 with
      | .ok () =>
        { s with scheduler := q }.setReset r (some ⟨t :: ts, removePes ++ [pe], true⟩)
      | .error e =>
        { s with
          scheduler := q
          failures := s.failures ++ [SchedulerError.peError e] }.setReset r none
    | _, _ => s.setReset r (some ⟨t :: ts, removePes, false⟩)
  | _ => s

/-- A PE is put back, or the loop goes on to the next entry, or it ends. -/
def resetReturn (s : System) (r : ℕ) : System :=
  match s.resets r with
  | some ⟨t :: ts, pe :: removePes, false⟩ =>
    { s with scheduler := s.scheduler.push t pe }.setReset r
      (some ⟨t :: ts, removePes, false⟩)
  | some ⟨_ :: ts, [], false⟩ => s.setReset r (some ⟨ts, [], true⟩)
  | some ⟨[], _, _⟩ => s.setReset r none
  | _ => s

/-! ### The transition system -/

def step [Allocator σ] (s : System) : Action σ → System
  | .acquirePe id j => s.acquirePe id j
  | .acquireSinglePe id h => s.acquireSinglePe id h
  | .createJob h j => s.createJob h j
  | .releaseHandler h => s.releaseHandler h
  | .takeFromHandler h => s.takeFromHandler h
  | .putFromHandler h => s.putFromHandler h
  | .start j args w => s.start j args w
  | .release j irq releasePe returnValue w => s.release j irq releasePe returnValue w
  | .tryRelease j irq releasePe returnValue w => s.tryRelease j irq releasePe returnValue w
  | .drop j irq w => s.release j irq true false w
  | .copyBack j w => s.copyBack j w
  | .resetInterrupts r order => s.resetInterrupts r order
  | .resetSteal r retry registers => s.resetSteal r retry registers
  | .resetReturn r => s.resetReturn r

end System

end Tapasco
