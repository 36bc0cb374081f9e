import Tapasco.Allocator
import Tapasco.Lib.Exec
import Tapasco.Scheduler

/-!
# Jobs

This module embeds `job.rs`: the launch of a PE with a list of arguments, and its release.
`start` rewrites the argument list in four passes. Transfers to the local memory of the
PE get the memory they belong to; transfers that need memory on the device get an address
from the memory's allocator; data is copied to the device, and what has to be copied back,
freed or joined later is noted at the PE; streams are taken out of the list and run in
threads of their own. What is left are register values, which are written to the argument
registers before the start register.

The surroundings of a job are the `World`: the device memories with their allocators, the
registers, and the answers of the DMA engine and of the stream threads, one for each call.
A DMA transfer moves exactly the bytes it is asked to move, or it fails after some of them.
-/

open Exec

namespace Tapasco

/-! ### The surroundings of a job -/

/-- What a DMA transfer does: all of it, or some bytes before it fails. -/
inductive DmaReply where
  | done
  | failed (moved : ℕ)
  deriving DecidableEq

/-- How a stream thread ended: with the bytes it received if it is a stream to the host,
with an error, or by a panic. -/
inductive StreamReply where
  | finished (received : List Byte)
  | failed
  | panicked

/-- The answers of the surroundings to the calls that are made, in order. -/
structure Env where
  copyTo : ℕ → DmaReply
  copyFrom : ℕ → DmaReply
  stream : ℕ → StreamReply

/-- The surroundings of a job, with the number of calls made so far. An `OffchipMemory`
has an allocator behind a mutex, which may be poisoned, and bytes behind a DMA engine. -/
structure World (σ : Type) where
  allocator : MemId → σ
  poisoned : MemId → Bool
  bytes : MemId → ByteMem
  registers : ByteMem
  env : Env
  copyTos : ℕ
  copyFroms : ℕ
  joins : ℕ

/-- The object behind a job's `Arc<dyn ReleasePE>`. -/
inductive JobScheduler where
  | main (s : Scheduler)
  | single (s : SinglePEScheduler)

def JobScheduler.releasePe (pe : PE) : JobScheduler → Except SchedulerError Unit × JobScheduler
  | .main s => ((s.releasePe pe).1, .main (s.releasePe pe).2)
  | .single s => ((s.releasePe pe).1, .single (s.releasePe pe).2)

inductive JobError where
  | allocatorError (source : AllocatorError)
  | dmaError
  | mutexError
  | peError (source : PEError)
  | unsupportedRegisterParameter (arg : PEParameter)
  | unsupportedSVMParameter (arg : PEParameter)
  | tooManyStreams
  | schedulerError (source : SchedulerError)
  | noLocalMemory
  | noPEtoRelease
  deriving DecidableEq

/-- A job, the scheduler its PE goes back to, and its surroundings. -/
structure JobState (σ : Type) where
  pe : Option PE
  scheduler : JobScheduler
  world : World σ

/-- Methods of a job. -/
abbrev JobM (σ : Type) := Exec (JobState σ) JobError

namespace World

variable {σ : Type}

/-- The surroundings with another allocator at a memory. -/
def setAllocator (w : World σ) (m : MemId) (a : σ) : World σ :=
  { w with allocator := Function.update w.allocator m a }

/-- The surroundings with bytes written to a memory. -/
def write (w : World σ) (m : MemId) (a : DeviceAddress) (data : List Byte) : World σ :=
  { w with bytes := Function.update w.bytes m ((w.bytes m).writeBytes a data) }

end World

namespace Job

variable {σ : Type}

/-! ### Access to the surroundings -/

/-- `self.pe.as_ref().unwrap()`. -/
def thePe : JobM σ PE := fun s =>
  match s.pe with
  | some pe => (.ok pe, s)
  | none => (.panic, s)

/-- `self.pe.as_mut().unwrap().add_copyback(param)`. -/
def addCopyback (param : CopyBack) : JobM σ Unit := do
  let pe ← thePe
  modify fun s => { s with pe := some (pe.addCopyback param) }

/-- Lock the allocator of a memory and make a call on it. -/
def withAllocator {α : Type} (m : MemId) (f : σ → Except AllocatorError α × σ) : JobM σ α :=
  fun s =>
    if s.world.poisoned m then (.err .mutexError, s)
    else
      match f (s.world.allocator m) with
      | (.ok a, al) => (.ok a, { s with world := s.world.setAllocator m al })
      | (.error e, al) =>
        (.err (.allocatorError e), { s with world := s.world.setAllocator m al })

/-- `dma().copy_to`: write the data to the memory. -/
def copyTo (m : MemId) (data : List Byte) (a : DeviceAddress) : JobM σ Unit := fun s =>
  let w := { s.world with copyTos := s.world.copyTos + 1 }
  match s.world.env.copyTo s.world.copyTos with
  | .done => (.ok (), { s with world := w.write m a data })
  | .failed n => (.err .dmaError, { s with world := w.write m a (data.take n) })

/-- `dma().copy_from`: read as many bytes as the buffer has. -/
def copyFrom (m : MemId) (a : DeviceAddress) (n : ℕ) : JobM σ (List Byte) := fun s =>
  let w := { s.world with copyFroms := s.world.copyFroms + 1 }
  match s.world.env.copyFrom s.world.copyFroms with
  | .done => (.ok ((s.world.bytes m).readBytes a n), { s with world := w })
  | .failed _ => (.err .dmaError, { s with world := w })

/-- Join a stream thread. -/
def joinStream (x : DataTransferStream) : JobM σ DataTransferStream := fun s =>
  let w := { s.world with joins := s.world.joins + 1 }
  match s.world.env.stream s.world.joins with
  | .finished received =>
    let data := if x.c2h then { x.data with bytes := received } else x.data
    (.ok { x with data }, { s with world := w })
  | .failed => (.err .dmaError, { s with world := w })
  | .panicked => (.panic, { s with world := w })

section

variable [Allocator σ]

/-! ### Launching -/

/-- A transfer to local memory becomes one to the local memory of the PE. -/
def localArg (arg : PEParameter) : JobM σ PEParameter :=
  match arg with
  | .dataTransferLocal x => do
    let pe ← thePe
    match pe.localMemory with
    | some m =>
      pure (.dataTransferAlloc
        { data := x.data, fromDevice := x.fromDevice, toDevice := x.toDevice, memory := m,
          free := x.free, fixed := x.fixed })
    | none => fail .noLocalMemory
  | arg => pure arg

/-- The first pass over the arguments. -/
def handleLocalMemories (args : List PEParameter) : JobM σ (List PEParameter) :=
  collect localArg args

/-- The address for a transfer that needs device memory. -/
def allocateFor (x : DataTransferAlloc) : JobM σ DeviceAddress := do
  let pe ← thePe
  if pe.svmInUse then pure x.data.ptr
  else
    match x.fixed with
    | some offset =>
      withAllocator x.memory fun a => Allocator.allocateFixed a x.data.bytes.length offset
    | none =>
      withAllocator x.memory fun a =>
        Allocator.allocate a x.data.bytes.length (some x.data.ptr)

/-- A transfer that needs device memory becomes a preallocated one. -/
def allocateArg (arg : PEParameter) : JobM σ PEParameter :=
  match arg with
  | .dataTransferAlloc x => do
    let a ← allocateFor x
    pure (.dataTransferPrealloc
      { data := x.data, deviceAddress := a, fromDevice := x.fromDevice, toDevice := x.toDevice,
        memory := x.memory, free := x.free })
  | arg => pure arg

/-- The second pass over the arguments. -/
def handleAllocates (args : List PEParameter) : JobM σ (List PEParameter) :=
  collect allocateArg args

/-- What is noted for the time after the execution, and the buffer that is handed back to
the caller at once. -/
def noteTransfer (x : DataTransferPrealloc) : JobM σ (List Buffer) := do
  let pe ← thePe
  if pe.svmInUse && !x.fromDevice then do
    addCopyback (.returned x)
    pure []
  else if x.fromDevice then do
    addCopyback (.transfer x)
    pure []
  else do
    if x.free then addCopyback (.free x.deviceAddress x.memory)
    pure [x.data]

/-- A preallocated transfer is carried out and becomes its device address. -/
def transferArg (arg : PEParameter) : JobM σ (PEParameter × List Buffer) :=
  match arg with
  | .dataTransferPrealloc x => do
    if x.toDevice then copyTo x.memory x.data.bytes x.deviceAddress
    let unused ← noteTransfer x
    pure (.deviceAddress x.deviceAddress, unused)
  | arg => pure (arg, [])

/-- The third pass over the arguments. -/
def handleTransfersToDevice (args : List PEParameter) :
    JobM σ (List PEParameter × List Buffer) := do
  let r ← collect transferArg args
  pure (r.map Prod.fst, r.flatMap Prod.snd)

/-- The fourth pass takes the streams out of the list. `c2h` and `h2c` say whether a
stream of the direction may still come. -/
def handleStreamTransfers : (c2h h2c : Bool) → List PEParameter → JobM σ (List PEParameter)
  | _, _, [] => pure []
  | c2h, h2c, arg :: args =>
    match arg with
    | .dataTransferStream x =>
      if (if x.c2h then c2h else h2c) then do
        addCopyback (.stream x)
        handleStreamTransfers (c2h && !x.c2h) (h2c && x.c2h) args
      else fail .tooManyStreams
    | arg => do
      let rest ← handleStreamTransfers c2h h2c args
      pure (arg :: rest)

/-- `self.pe.as_ref().unwrap().set_arg(i, arg)`. -/
def writeArg (i : ℕ) (arg : PEParameter) : JobM σ Unit := do
  let pe ← thePe
  fun s =>
    match pe.setArg i arg s.world.registers with
    | (.ok (), r) => (.ok (), { s with world := { s.world with registers := r } })
    | (.error e, r) => (.err (.peError e), { s with world := { s.world with registers := r } })

/-- The register value of an argument. -/
def setArgument (i : ℕ) (arg : PEParameter) : JobM σ Unit :=
  match arg with
  | .single32 x => writeArg i (.single32 x)
  | .single64 x => writeArg i (.single64 x)
  | .deviceAddress a => writeArg i (.single64 (BitVec.ofNat 64 a))
  | .virtualAddress p => do
    let pe ← thePe
    if pe.svmInUse then writeArg i (.single64 (BitVec.ofNat 64 p))
    else fail (.unsupportedSVMParameter (.virtualAddress p))
  | arg => fail (.unsupportedRegisterParameter arg)

/-- The loop over the register values from index `i` on. -/
def setArguments : ℕ → List PEParameter → JobM σ Unit
  | _, [] => pure ()
  | i, arg :: args => do
    setArgument i arg
    setArguments (i + 1) args

/-- `self.pe.as_mut().unwrap().start()`. -/
def startPe : JobM σ Unit := do
  let pe ← thePe
  fun s =>
    match pe.start s.world.registers with
    | (.ok pe', r) =>
      (.ok (), { s with pe := some pe', world := { s.world with registers := r } })
    | (.error e, r) => (.err (.peError e), { s with world := { s.world with registers := r } })

/-- What `start` does before the PE is started: the four passes, and the argument registers. The
buffers that will not be copied back are returned. -/
def prepare (args : List PEParameter) : JobM σ (List Buffer) := do
  let allocArgs ← handleLocalMemories args
  let localArgs ← handleAllocates allocArgs
  let (transArgs, unusedMem) ← handleTransfersToDevice localArgs
  let transArgs ← handleStreamTransfers true true transArgs
  setArguments 0 transArgs
  pure unusedMem

/-- Launch the PE with the arguments. -/
def start (args : List PEParameter) : JobM σ (List Buffer) := do
  let unusedMem ← prepare args
  startPe
  pure unusedMem

/-! ### Releasing -/

/-- Carry out one piece of the work that was left; the buffer for the caller. -/
def copyBackOne (param : CopyBack) : JobM σ (List Buffer) :=
  match param with
  | .transfer x => do
    let bytes ← copyFrom x.memory x.deviceAddress x.data.bytes.length
    if x.free then withAllocator x.memory fun a => Allocator.free a x.deviceAddress
    pure [{ x.data with bytes }]
  | .free addr mem => do
    withAllocator mem fun a => Allocator.free a addr
    pure []
  | .stream x => do
    let x ← joinStream x
    pure [x.data]
  | .returned x => pure [x.data]

/-- Carry out the work that was left, until a piece of it fails. -/
def handleCopyback (returnValue : ℕ) (copyback : Option (List CopyBack)) :
    JobM σ (ℕ × List Buffer) :=
  match copyback with
  | some copybacks => do
    let res ← collect copyBackOne copybacks
    pure (returnValue, res.flatten)
  | none => pure (returnValue, [])

/-- `self.scheduler.release_pe(self.pe.take().unwrap())`. -/
def giveBack : JobM σ Unit := do
  let pe ← thePe
  fun s =>
    match s.scheduler.releasePe pe with
    | (.ok (), sched) => (.ok (), { s with pe := none, scheduler := sched })
    | (.error e, sched) => (.err (.schedulerError e), { s with pe := none, scheduler := sched })

/-- `release` up to the copy-back. `irq` is the answer of the PE's interrupt. -/
def handOver (irq : InterruptReply) (releasePe returnValue : Bool) :
    JobM σ (ℕ × Option (List CopyBack)) := fun s =>
  match s.pe with
  | none => (.err .noPEtoRelease, s)
  | some pe =>
    match pe.release returnValue irq s.world.registers with
    | (.error e, pe', r) =>
      (.err (.peError e), { s with pe := some pe', world := { s.world with registers := r } })
    | (.ok work, pe', r) =>
      let s := { s with pe := some pe', world := { s.world with registers := r } }
      (do
        if releasePe then giveBack
        pure work) s

/-- Wait for the PE, give it back if asked, and carry out the work that was left. -/
def release (irq : InterruptReply) (releasePe returnValue : Bool) :
    JobM σ (ℕ × List Buffer) := do
  let work ← handOver irq releasePe returnValue
  handleCopyback work.1 work.2

/-- `try_release` up to the copy-back. -/
def tryHandOver (irq : InterruptReply) (releasePe returnValue : Bool) :
    JobM σ (Option (ℕ × Option (List CopyBack))) := fun s =>
  match s.pe with
  | none => (.err .noPEtoRelease, s)
  | some pe =>
    match pe.tryRelease returnValue irq s.world.registers with
    | (.error e, pe', r) =>
      (.err (.peError e), { s with pe := some pe', world := { s.world with registers := r } })
    | (.ok none, pe', r) =>
      (.ok none, { s with pe := some pe', world := { s.world with registers := r } })
    | (.ok (some work), pe', r) =>
      let s := { s with pe := some pe', world := { s.world with registers := r } }
      (do
        if releasePe then giveBack
        pure (some work)) s

/-- The same if the PE is done, and nothing otherwise. -/
def tryRelease (irq : InterruptReply) (releasePe returnValue : Bool) :
    JobM σ (Option (ℕ × List Buffer)) := do
  match ← tryHandOver irq releasePe returnValue with
  | none => pure none
  | some work => do
    let r ← handleCopyback work.1 work.2
    pure (some r)

/-- Dropping a job releases a PE it still has, and panics if that fails. -/
def drop (irq : InterruptReply) : JobM σ Unit := fun s =>
  match s.pe with
  | none => (.ok (), s)
  | some _ =>
    match release irq true false s with
    | (.ok _, s') => (.ok (), s')
    | (_, s') => (.panic, s')

end

end Job

end Tapasco
