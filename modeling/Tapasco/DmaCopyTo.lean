import Tapasco.Dma
import Tapasco.Lib.Runs

/-!
# Copying to the Device

This module embeds `do_copy_to` and `wait_for_write` of `dma_user_space.rs` as a transition
system. Any number of threads are inside of `copy_to` or `h2c_stream`. Each of their steps
makes one operation on what they share: the pool of bounce buffers, the queues of buffers
whose transfers are outstanding, the counters, the lock of the engine, the eventfds. Between
two steps other threads run, and the engine completes transfers and raises interrupts.

Writes of memory and streams have channels, counters and queues of their own and share the
pool. The channel of a call is named by its flag `stream`.
-/

open Word64

namespace Tapasco

namespace CopyTo

/-- Where a call is. `next` tells a wait for any buffer (in the loop) from the wait for the
call's last transfer (at the end). -/
inductive Pc where
  /-- The head of `while btt > 0`. -/
  | loop
  /-- `to_dev_buffer.steal()`. -/
  | steal
  /-- `tlkm_ioctl_dma_buffer_from_dev`. -/
  | fromDev (buffer : DMABuffer)
  /-- `copy_from_slice` into the buffer. -/
  | fill (buffer : DMABuffer)
  /-- `tlkm_ioctl_dma_buffer_to_dev`. -/
  | toDev (buffer : DMABuffer)
  /-- `memory.lock()`. -/
  | lock (buffer : DMABuffer)
  /-- The push to the queue of outstanding buffers. -/
  | push (buffer : DMABuffer)
  /-- `schedule_dma_transfer`. -/
  | schedule (addr : ℕ)
  /-- The `fetch_add` on the counter of transfers, and the end of the lock's scope. -/
  | count
  /-- The head of `wait_for_write`. -/
  | waitEnter (next : Bool)
  /-- The condition of its `while`. -/
  | waitCheck (next : Bool)
  /-- `check_for_interrupt`. -/
  | waitRead (next : Bool)
  /-- The `fetch_add` on the counter of interrupts, `n` times from here. -/
  | waitCount (next : Bool) (n : ℕ)
  /-- The pop that follows it. -/
  | waitPop (next : Bool) (n : ℕ)
  /-- The push to the pool that follows this. -/
  | waitPush (next : Bool) (n : ℕ) (buffer : DMABuffer)
  /-- The call has returned. -/
  | returned (result : Except DmaError Unit)
  deriving DecidableEq

end CopyTo

/-- The local variables of a call. -/
structure CopyTo where
  stream : Bool
  data : List Byte
  ptrBuffer : ℕ
  ptrDevice : DeviceAddress
  btt : ℕ
  bttThis : ℕ
  highestUsed : ℕ
  pc : CopyTo.Pc

namespace CopyTo

/-- What the calls share for one kind of transfers: the queue of outstanding buffers, the counters
of transfers and interrupts, and the engine's channel, whose log has the bytes that were moved. For
the record: how many buffers were taken out of the queue. -/
structure Channel where
  out : List DMABuffer
  popped : ℕ
  cntr : ℕ
  intCntr : ℕ
  engine : Engine (List Byte)

/-- What all calls share: the pool, the channels, whether the device is a Versal (only there streams
have an interrupt), the holder of the lock, and the bytes of the buffers. For the record: the
buffers that failed calls have dropped. -/
structure Shared where
  toDevBuffer : List DMABuffer
  channel : Bool → Channel
  isVersal : Bool
  lock : Option ℕ
  mapped : ℕ → List Byte
  lost : List DMABuffer

def Shared.onChannel (s : Shared) (stream : Bool) (f : Channel → Channel) : Shared :=
  { s with channel := Function.update s.channel stream (f (s.channel stream)) }

def new (stream : Bool) (data : List Byte) (ptr : DeviceAddress) : CopyTo where
  stream
  data
  ptrBuffer := 0
  ptrDevice := ptr
  btt := data.length
  bttThis := 0
  highestUsed := 0
  pc := .loop

def goto (c : CopyTo) (pc : Pc) : CopyTo :=
  { c with pc }

/-- The call ends with an error while it has a buffer, which is dropped. -/
def dropBuffer (s : Shared) (c : CopyTo) (buffer : DMABuffer) (e : DmaError) : Shared × CopyTo :=
  ({ s with lost := s.lost ++ [buffer] }, c.goto (.returned (.error e)))

/-- The bytes of a buffer after the next piece of the data has been copied into it. -/
def filled (c : CopyTo) (mapped : List Byte) : List Byte :=
  slice c.data c.ptrBuffer c.bttThis ++ mapped.drop c.bttThis

/-- The transfer of this piece, from the buffer at `addr`. -/
def transfer (c : CopyTo) (s : Shared) (t addr : ℕ) : Transfer where
  owner := t
  offset := c.ptrBuffer
  desc := scheduleDmaTransfer s.isVersal addr c.ptrDevice c.bttThis false c.stream

/-- **One step** of the call with number `t`. -/
def step (t : ℕ) (reply : Reply) (s : Shared) (c : CopyTo) : Shared × CopyTo :=
  match c.pc with
  | .loop => if 0 < c.btt then (s, c.goto .steal) else (s, c.goto (.waitEnter false))
  | .steal =>
    match reply, s.toDevBuffer with
    | .ok, buffer :: rest => ({ s with toDevBuffer := rest }, c.goto (.fromDev buffer))
    | .ok, [] => (s, c.goto (.waitEnter true))
    | _, _ => (s, c)
  | .fromDev buffer =>
    if reply = .failed then dropBuffer s c buffer .dmaBufferAllocate
    else
      (s, { c with bttThis := if c.btt < buffer.size then c.btt else buffer.size
                   pc := .fill buffer })
  | .fill buffer =>
    ({ s with mapped := Function.update s.mapped buffer.addr (c.filled (s.mapped buffer.addr)) },
      c.goto (.toDev buffer))
  | .toDev buffer =>
    if reply = .failed then dropBuffer s c buffer .dmaBufferAllocate
    else (s, c.goto (.lock buffer))
  | .lock buffer =>
    if s.lock = none then ({ s with lock := some t }, c.goto (.push buffer)) else (s, c)
  | .push buffer =>
    (s.onChannel c.stream fun ch => { ch with out := ch.out ++ [buffer] },
      c.goto (.schedule buffer.addr))
  | .schedule addr =>
    (s.onChannel c.stream fun ch => { ch with engine := ch.engine.issue (c.transfer s t addr) },
      c.goto .count)
  | .count =>
    ({ s.onChannel c.stream fun ch => { ch with cntr := ch.cntr + 1 } with lock := none },
      { c with
        highestUsed := (s.channel c.stream).cntr
        btt := c.btt - c.bttThis
        ptrBuffer := c.ptrBuffer + c.bttThis
        ptrDevice := if c.stream then c.ptrDevice else wrappingAdd c.ptrDevice c.bttThis
        pc := .loop })
  | .waitEnter next =>
    if c.stream = true ∧ s.isVersal = false then
      (s, c.goto (.returned (.error .streamsNotSupported)))
    else if next = true ∧ s.toDevBuffer ≠ [] then (s, c.goto .steal)
    else (s, c.goto (.waitCheck next))
  | .waitCheck next =>
    if next = true ∧ s.toDevBuffer = [] ∨
        next = false ∧ (s.channel c.stream).intCntr ≤ c.highestUsed then
      (s, c.goto (.waitRead next))
    else if next = true then (s, c.goto .steal)
    else (s, c.goto (.returned (.ok ())))
  | .waitRead next =>
    if reply = .failed then (s, c.goto (.returned (.error .errorInterrupt)))
    else
      (s.onChannel c.stream fun ch => { ch with engine := ch.engine.checkForInterrupt },
        c.goto (.waitCount next (s.channel c.stream).engine.pending))
  | .waitCount next 0 => (s, c.goto (.waitCheck next))
  | .waitCount next (n + 1) =>
    (s.onChannel c.stream fun ch => { ch with intCntr := ch.intCntr + 1 },
      c.goto (.waitPop next n))
  | .waitPop next n =>
    match (s.channel c.stream).out with
    | buffer :: rest =>
      (s.onChannel c.stream fun ch => { ch with out := rest, popped := ch.popped + 1 },
        c.goto (.waitPush next n buffer))
    | [] => (s, c.goto (.returned (.error .tooManyInterrupts)))
  | .waitPush next n buffer =>
    ({ s with toDevBuffer := s.toDevBuffer ++ [buffer] }, c.goto (.waitCount next n))
  | .returned _ => (s, c)

attribute [elab_as_elim] step.fun_cases

/-! ### The transition system -/

/-- The shared state and the calls, of which call `t` is the one at index `t`. -/
structure System where
  shared : Shared
  calls : List CopyTo

abbrev System.engine (s : System) (stream : Bool) : Engine (List Byte) :=
  (s.shared.channel stream).engine

/-- A thread calls `copy_to` or `h2c_stream`, a call makes a step, or the engine completes a
transfer or raises an interrupt. -/
inductive Action where
  | call (stream : Bool) (data : List Byte) (ptr : DeviceAddress)
  | step (t : ℕ) (reply : Reply)
  | complete (stream : Bool)
  | raise (stream : Bool)

namespace System

/-- The DMA engine of a device with the given bounce buffers. -/
def new (buffers : List DMABuffer) (isVersal : Bool) (mapped : ℕ → List Byte) : System where
  shared :=
    { toDevBuffer := buffers
      channel := fun _ => ⟨[], 0, 0, 0, .idle⟩
      isVersal
      lock := none
      mapped
      lost := [] }
  calls := []

def onEngine (s : System) (stream : Bool) (f : Engine (List Byte) → Engine (List Byte)) : System :=
  { s with shared := s.shared.onChannel stream fun ch => { ch with engine := f ch.engine } }

/-- **One action.** -/
def step (s : System) : Action → System
  | .call stream data ptr => { s with calls := s.calls ++ [CopyTo.new stream data ptr] }
  | .step t reply =>
    match s.calls[t]? with
    | some c =>
      let r := CopyTo.step t reply s.shared c
      ⟨r.1, s.calls.set t r.2⟩
    | none => s
  | .complete stream =>
    s.onEngine stream fun e =>
      e.complete fun x => (s.shared.mapped x.desc.addrHost).take x.desc.size
  | .raise stream => s.onEngine stream Engine.raise

end System

end CopyTo

end Tapasco
