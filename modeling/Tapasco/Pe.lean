import Tapasco.Lib.ByteMem

/-!
# Processing Elements

This module embeds `pe.rs` with the parameter types of `device.rs` and the register
accesses of `mmap_mut.rs`. A processing element (PE) is a window of device registers: the
start register at offset 0, the interrupt enable registers at 4 and 8, the interrupt status
at `0x0c`, the return value at `0x10`, and the arguments at `0x20` in steps of `0x10`. The
object on the host also carries whether the PE runs, and what has to be copied back and
freed when it is done.

Device memories are named by numbers, and a buffer of the caller is its bytes with the
address they have on the host. The debug core of a PE is left out.
-/

namespace Tapasco

abbrev DeviceAddress := ℕ

/-- `PEId`: the type of a PE. -/
abbrev PEId := ℕ

/-- An `Arc<OffchipMemory>`. -/
abbrev MemId := ℕ

/-! ### Parameters -/

/-- A `Box<[u8]>`: the bytes and where they are on the host. -/
structure Buffer where
  ptr : ℕ
  bytes : List Byte
  deriving DecidableEq

/-- A transfer to the local memory of the PE that will be selected. -/
structure DataTransferLocal where
  data : Buffer
  fromDevice : Bool
  toDevice : Bool
  free : Bool
  fixed : Option DeviceAddress
  deriving DecidableEq

/-- A transfer that needs an allocation on the device. -/
structure DataTransferAlloc where
  data : Buffer
  fromDevice : Bool
  toDevice : Bool
  free : Bool
  memory : MemId
  fixed : Option DeviceAddress
  deriving DecidableEq

/-- A transfer with preallocated memory on the device. -/
structure DataTransferPrealloc where
  data : Buffer
  deviceAddress : DeviceAddress
  fromDevice : Bool
  toDevice : Bool
  free : Bool
  memory : MemId
  deriving DecidableEq

/-- A stream from the card to the host (`c2h`) or from the host to the card. -/
structure DataTransferStream where
  data : Buffer
  c2h : Bool
  memory : MemId
  deriving DecidableEq

inductive PEParameter where
  | single32 (x : BitVec 32)
  | single64 (x : BitVec 64)
  | deviceAddress (a : DeviceAddress)
  | dataTransferLocal (x : DataTransferLocal)
  | dataTransferAlloc (x : DataTransferAlloc)
  | dataTransferPrealloc (x : DataTransferPrealloc)
  | dataTransferStream (x : DataTransferStream)
  | virtualAddress (p : ℕ)
  deriving DecidableEq

/-! ### Registers -/

/-- A word that is written to a register. -/
inductive ValType where
  | u32 (x : BitVec 32)
  | u64 (x : BitVec 64)

/-- The first `n` bytes of a number, least significant byte first. -/
def leBytes : (n : ℕ) → ℕ → List Byte
  | 0, _ => []
  | n + 1, x => BitVec.ofNat 8 x :: leBytes n (x / 256)

/-- The bytes of a word as they stand in the registers. -/
def ValType.bytes : ValType → List Byte
  | .u32 x => leBytes 4 x.toNat
  | .u64 x => leBytes 8 x.toNat

theorem length_leBytes (n x : ℕ) : (leBytes n x).length = n := by
  induction n generalizing x with
  | zero => rfl
  | succ n ih => rw [leBytes, List.length_cons, ih]

theorem ValType.length_bytes_le (v : ValType) : v.bytes.length ≤ 8 := by
  cases v <;> simp [ValType.bytes, length_leBytes]

/-- The number whose bytes these are. -/
def ofLeBytes : List Byte → ℕ
  | [] => 0
  | b :: l => b.toNat + 256 * ofLeBytes l

theorem ofLeBytes_leBytes (n x : ℕ) : ofLeBytes (leBytes n x) = x % 256 ^ n := by
  induction n generalizing x with
  | zero => rw [leBytes, ofLeBytes, pow_zero, Nat.mod_one]
  | succ n ih =>
    have hs : x % 256 ^ (n + 1) = x % 256 + 256 * (x / 256 % 256 ^ n) := by
      rw [Nat.pow_succ', Nat.mod_mul]
    rw [leBytes, ofLeBytes, ih, BitVec.toNat_ofNat, hs]

def tapascoWriteVolatile (registers : ByteMem) (offset : ℕ) (value : ValType) : ByteMem :=
  registers.writeBytes offset value.bytes

def tapascoReadVolatile (registers : ByteMem) (offset : ℕ) (u32 : Bool) : ℕ :=
  ofLeBytes (registers.readBytes offset (if u32 then 4 else 8))

/-! ### The PE -/

/-- Work that is left for the time after the execution. -/
inductive CopyBack where
  | transfer (x : DataTransferPrealloc)
  | free (addr : DeviceAddress) (mem : MemId)
  | stream (x : DataTransferStream)
  | returned (x : DataTransferPrealloc)
  deriving DecidableEq

/-- The host's view of a PE. -/
structure PE where
  id : ℕ
  typeId : PEId
  offset : DeviceAddress
  active : Bool
  copyBack : Option (List CopyBack)
  localMemory : Option MemId
  interruptId : ℕ
  svmInUse : Bool
  deriving DecidableEq

/-- The errors of `pe.rs` that the functions of this module return. -/
inductive PEError where
  | unsupportedParameter (param : PEParameter)
  | peAlreadyActive (id : ℕ)
  | errorInterrupt
  deriving DecidableEq

/-- What the interrupt of a PE answers: the number of interrupts since the last read, or
an error of the read. -/
abbrev InterruptReply := Except Unit ℕ

namespace PE

def new (id : ℕ) (typeId : PEId) (offset : DeviceAddress) (interruptId : ℕ)
    (svmInUse : Bool) : PE :=
  { id, typeId, offset, active := false, copyBack := none, localMemory := none, interruptId,
    svmInUse }

/-- Write the start register, unless the PE already runs. -/
def start (pe : PE) (registers : ByteMem) : Except PEError PE × ByteMem :=
  if pe.active then (.error (.peAlreadyActive pe.id), registers)
  else
    (.ok { pe with active := true }, tapascoWriteVolatile registers pe.offset (.u32 1))

/-- Reset the interrupt status by a write; the read that follows changes nothing here. -/
def resetInterrupt (pe : PE) (v : Bool) (registers : ByteMem) : ByteMem :=
  tapascoWriteVolatile registers (pe.offset + 0x0c) (.u32 (if v then 1 else 0))

/-- The lowest bit of the interrupt status. -/
def interruptSet (pe : PE) (registers : ByteMem) : Bool :=
  decide (tapascoReadVolatile registers (pe.offset + 0x0c) true % 2 = 1)

/-- Enable the interrupts of an idle PE. -/
def enableInterrupt (pe : PE) (registers : ByteMem) : Except PEError Unit × ByteMem :=
  if pe.active then (.error (.peAlreadyActive pe.id), registers)
  else
    (.ok (), tapascoWriteVolatile
      (tapascoWriteVolatile registers (pe.offset + 0x04) (.u32 1)) (pe.offset + 0x08) (.u32 1))

/-- Wait for the interrupt of a running PE and deactivate it. -/
def waitForCompletion (pe : PE) (irq : InterruptReply) (registers : ByteMem) :
    Except PEError Unit × PE × ByteMem :=
  if pe.active then
    match irq with
    | .error _ => (.error .errorInterrupt, pe, registers)
    | .ok _ =>
      let pe := { pe with active := false }
      (.ok (), pe, pe.resetInterrupt true registers)
  else (.ok (), pe, registers)

/-- Deactivate a running PE if its interrupt has occurred; whether the PE is idle now. -/
def checkForCompletion (pe : PE) (irq : InterruptReply) (registers : ByteMem) :
    Except PEError Bool × PE × ByteMem :=
  if pe.active then
    match irq with
    | .error _ => (.error .errorInterrupt, pe, registers)
    | .ok 0 => (.ok false, pe, registers)
    | .ok (_ + 1) =>
      let pe := { pe with active := false }
      (.ok true, pe, pe.resetInterrupt true registers)
  else (.ok true, pe, registers)

def setArg (pe : PE) (argn : ℕ) (arg : PEParameter) (registers : ByteMem) :
    Except PEError Unit × ByteMem :=
  let offset := pe.offset + 0x20 + argn * 0x10
  match arg with
  | .single32 x => (.ok (), tapascoWriteVolatile registers offset (.u32 x))
  | .single64 x => (.ok (), tapascoWriteVolatile registers offset (.u64 x))
  | arg => (.error (.unsupportedParameter arg), registers)

def returnValue (pe : PE) (registers : ByteMem) : ℕ :=
  tapascoReadVolatile registers (pe.offset + 0x10) false

/-- Append to the work that is left for the time after the execution. -/
def addCopyback (pe : PE) (param : CopyBack) : PE :=
  { pe with copyBack := some (pe.copyBack.getD [] ++ [param]) }

/-- Take the work that is left. -/
def getCopyback (pe : PE) : Option (List CopyBack) × PE :=
  (pe.copyBack, { pe with copyBack := none })

/-- Wait for the PE, then take its return value and the work that is left. -/
def release (pe : PE) (returnValue : Bool) (irq : InterruptReply) (registers : ByteMem) :
    Except PEError (ℕ × Option (List CopyBack)) × PE × ByteMem :=
  match pe.waitForCompletion irq registers with
  | (.error e, pe, registers) => (.error e, pe, registers)
  | (.ok (), pe, registers) =>
    let rv := if returnValue then pe.returnValue registers else 0
    (.ok (rv, pe.getCopyback.1), pe.getCopyback.2, registers)

/-- The same if the PE is done, and nothing otherwise. -/
def tryRelease (pe : PE) (returnValue : Bool) (irq : InterruptReply) (registers : ByteMem) :
    Except PEError (Option (ℕ × Option (List CopyBack))) × PE × ByteMem :=
  match pe.checkForCompletion irq registers with
  | (.error e, pe, registers) => (.error e, pe, registers)
  | (.ok false, pe, registers) => (.ok none, pe, registers)
  | (.ok true, pe, registers) =>
    let rv := if returnValue then pe.returnValue registers else 0
    (.ok (some (rv, pe.getCopyback.1)), pe.getCopyback.2, registers)

end PE

end Tapasco
