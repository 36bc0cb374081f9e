import Tapasco.Pe

/-!
# The PE Scheduler

This module embeds `scheduler.rs`. The scheduler keeps one first-in first-out queue of
idle PEs for each type. A client takes a PE out of the queue of a type and later gives it
back; a client that wants to keep one PE for a series of jobs moves it into a queue of
its own (`SinglePEScheduler`), from which its jobs are served until the handler is
released.

An operation on a queue is atomic. The blocking calls are attempts that are repeated
until they succeed, so the functions here make one attempt; `Steal::Retry` is an attempt
that finds nothing.
-/

namespace Tapasco

/-- The errors of `scheduler.rs`, without those of the debug core. -/
inductive SchedulerError where
  | peUnavailable (id : PEId)
  | noSuchPE (id : PEId)
  | peNotFound (name : String) (possible : List String)
  | peStillActive (pe : PE)
  | peError (source : PEError)
  | noLocalMemory
  deriving DecidableEq

/-- A PE entry of the status core, as far as the scheduler reads it. -/
structure StatusPe where
  name : String
  id : PEId
  offset : DeviceAddress
  localMemory : Bool
  interrupts : List ℕ

/-- The queues of idle PEs, with the number of PEs and the name of each type. -/
structure Scheduler where
  pes : PEId → Option (List PE)
  pesOverview : PEId → Option ℕ
  pesName : List (PEId × String)

namespace Scheduler

/-- Append a PE to the queue of a type, which is created if it does not exist. -/
def push (s : Scheduler) (id : PEId) (pe : PE) : Scheduler :=
  { s with pes := Function.update s.pes id (some ((s.pes id).getD [] ++ [pe])) }

/-! ### Construction -/

/-- The variables of the loop in `Scheduler::new`. -/
structure Setup where
  scheduler : Scheduler
  interruptId : ℕ
  localMemories : List MemId

/-- The interrupt of an entry: the published one, or a guess. -/
def interruptOf (guess : ℕ) (entry : StatusPe) : ℕ :=
  entry.interrupts.headD guess

/-- Create the PE and file it under its type. `accepts` says for which interrupt numbers the driver
registers an eventfd. -/
def addPe (accepts : ℕ → Bool) (svmInUse : Bool) (i : ℕ) (entry : StatusPe) (st : Setup) :
    Except SchedulerError Setup :=
  let interruptId := interruptOf st.interruptId entry
  if accepts interruptId then
    let pe := PE.new i entry.id entry.offset interruptId svmInUse
    let pe := if entry.localMemory then { pe with localMemory := st.localMemories.head? } else pe
    let s := st.scheduler.push entry.id pe
    .ok {
      scheduler := { s with
        pesName := if (st.scheduler.pes entry.id).isSome then s.pesName
          else s.pesName ++ [(entry.id, entry.name)]
        pesOverview := Function.update s.pesOverview entry.id
          (some ((s.pesOverview entry.id).getD 0 + 1)) }
      interruptId := interruptId + 1 + (if entry.localMemory then 1 else 0)
      localMemories := if entry.localMemory then st.localMemories.tail else st.localMemories }
  else .error (.peError .errorInterrupt)

def addPes (accepts : ℕ → Bool) (svmInUse : Bool) :
    ℕ → List StatusPe → Setup → Except SchedulerError Setup
  | _, [], st => .ok st
  | i, entry :: entries, st =>
    match addPe accepts svmInUse i entry st with
    | .ok st' => addPes accepts svmInUse (i + 1) entries st'
    | .error e => .error e

def new (pes : List StatusPe) (localMemories : List MemId) (accepts : ℕ → Bool)
    (isPcie svmInUse : Bool) : Except SchedulerError Scheduler :=
  match addPes accepts svmInUse 0 pes
      ⟨⟨fun _ => none, fun _ => none, []⟩, if isPcie then 4 else 0, localMemories⟩ with
  | .ok st => .ok st.scheduler
  | .error e => .error e

/-! ### Operations -/

/-- One attempt to take a PE out of the queue of a type. -/
def doAcquirePe (s : Scheduler) (id : PEId) : Except SchedulerError (Option PE) × Scheduler :=
  match s.pes id with
  | some (pe :: q) => (.ok (some pe), { s with pes := Function.update s.pes id (some q) })
  | some [] => (.ok none, s)
  | none => (.error (.noSuchPE id), s)

/-- Give an idle PE back to the queue of its type. -/
def releasePe (s : Scheduler) (pe : PE) : Except SchedulerError Unit × Scheduler :=
  if pe.active then (.error (.peStillActive pe), s)
  else
    match s.pes pe.typeId with
    | some _ => (.ok (), s.push pe.typeId pe)
    | none => (.error (.noSuchPE pe.typeId), s)

def numPes (s : Scheduler) (id : PEId) : ℕ :=
  (s.pesOverview id).getD 0

/-- The type with the given name. -/
def getPeId (s : Scheduler) (name : String) : Except SchedulerError PEId :=
  match s.pesName.find? fun e => decide (e.2 = name) with
  | some e => .ok e.1
  | none => .error (.peNotFound name (s.pesName.map Prod.snd))

end Scheduler

/-- The queue of a client that keeps one PE. -/
structure SinglePEScheduler where
  pe : List PE
  localMemory : Option MemId

namespace SinglePEScheduler

def new (pe : PE) : SinglePEScheduler :=
  ⟨[pe], pe.localMemory⟩

/-- One attempt to take the PE. -/
def acquirePe (s : SinglePEScheduler) : Option PE × SinglePEScheduler :=
  match s.pe with
  | pe :: q => (some pe, { s with pe := q })
  | [] => (none, s)

/-- Put the PE back, whatever its state. -/
def releasePe (s : SinglePEScheduler) (pe : PE) : Except SchedulerError Unit × SinglePEScheduler :=
  (.ok (), { s with pe := s.pe ++ [pe] })

def getLocalMemory (s : SinglePEScheduler) : Except SchedulerError MemId :=
  match s.localMemory with
  | some m => .ok m
  | none => .error .noLocalMemory

end SinglePEScheduler

end Tapasco
