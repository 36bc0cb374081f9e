import Tapasco.Dma
import Tapasco.Lib.Runs

/-!
# Copying from the Device

This module embeds `do_copy_from`, `update_interrupts`, `copyback_buffer` and
`release_buffer` of `dma_user_space.rs` as a transition system. Any number of threads are
inside of `copy_from` or `c2h_stream`. Each of them has a list of the buffers it has issued
transfers for, with the numbers of these transfers; it shares the pool of bounce buffers, the
counters, the lock of the engine and the eventfds with the others. Each step makes one
operation on what is shared.

Reads of memory and streams have channels and counters of their own and share the pool. The
channel of a call is named by its flag `stream`.
-/

open Word64

namespace Tapasco

namespace CopyFrom

/-- An entry of `used_buffers`: the number of the transfer, the buffer until it is taken, and
the place of its bytes in the caller's data. -/
structure UsedBuffer where
  cntr : ℕ
  buf : Option DMABuffer
  offset : ℕ
  len : ℕ
  deriving DecidableEq

/-- Where a call is. `last` tells the loop at the end from the one that issues transfers; `used` is
the number of counted interrupts that were read, and `i` the place in `used_buffers`. -/
inductive Pc where
  /-- The head of `while btt > 0`. -/
  | loop
  /-- `check_for_interrupt` in `update_interrupts`. -/
  | update (last : Bool)
  /-- The `fetch_add` on the counter of interrupts. -/
  | add (last : Bool) (n : ℕ)
  /-- The load of this counter in `release_buffer`. -/
  | load (last : Bool)
  /-- The loop over `used_buffers`. -/
  | release (last : Bool) (used i : ℕ)
  /-- `copyback_buffer`. -/
  | copyback (last : Bool) (used i : ℕ) (entry : UsedBuffer) (buffer : DMABuffer)
  /-- The push to the pool. -/
  | give (last : Bool) (used i : ℕ) (buffer : DMABuffer)
  /-- The end of this loop: `used_buffers.retain`. -/
  | retain (last : Bool) (used : ℕ)
  /-- `from_dev_buffer.steal()`. -/
  | steal
  /-- `tlkm_ioctl_dma_buffer_to_dev`. -/
  | toDev (buffer : DMABuffer)
  /-- `memory.lock()`. -/
  | lock (buffer : DMABuffer)
  /-- `schedule_dma_transfer`. -/
  | schedule (buffer : DMABuffer)
  /-- The `fetch_add` on the counter of transfers, and the end of the lock's scope. -/
  | count (buffer : DMABuffer)
  /-- The head of `while !used_buffers.is_empty()`. -/
  | drain
  /-- The call has returned. -/
  | returned (result : Except DmaError Unit)
  deriving DecidableEq

end CopyFrom

/-- A call of `do_copy_from` with its local variables and its argument `ptr`. For the record:
the numbers of the transfers that were copied back. -/
structure CopyFrom where
  stream : Bool
  ptr : DeviceAddress
  data : List Byte
  ptrBuffer : ℕ
  ptrDevice : DeviceAddress
  btt : ℕ
  usedBuffers : List CopyFrom.UsedBuffer
  copied : List ℕ
  pc : CopyFrom.Pc

namespace CopyFrom

/-- What the calls share for one kind of transfers: the counters of transfers and interrupts, and
the engine's channel, whose log has the memory of the device at each completion. For a stream this
is only a way to name the bytes that it delivers. -/
structure Channel where
  cntr : ℕ
  intCntr : ℕ
  engine : Engine ByteMem

/-- What all calls share: the pool, the channels, whether the device is a Versal (only there streams
have an interrupt), the holder of the lock, and the bytes of the buffers. For the record: the
buffers that failed calls have dropped, with the numbers of the calls. -/
structure Shared where
  fromDevBuffer : List DMABuffer
  channel : Bool → Channel
  isVersal : Bool
  lock : Option ℕ
  mapped : ℕ → ByteMem
  lost : List (ℕ × DMABuffer)

/-- A change to one of the channels. -/
def Shared.onChannel (s : Shared) (stream : Bool) (f : Channel → Channel) : Shared :=
  { s with channel := Function.update s.channel stream (f (s.channel stream)) }

/-- A call before its first step. -/
def new (stream : Bool) (ptr : DeviceAddress) (data : List Byte) : CopyFrom where
  stream
  ptr
  data
  ptrBuffer := 0
  ptrDevice := ptr
  btt := data.length
  usedBuffers := []
  copied := []
  pc := .loop

/-- The call goes on elsewhere. -/
def goto (c : CopyFrom) (pc : Pc) : CopyFrom :=
  { c with pc }

/-- The buffers in `used_buffers` that are not taken. -/
def buffers (c : CopyFrom) : List DMABuffer :=
  c.usedBuffers.filterMap UsedBuffer.buf

/-- The call number `t` ends with an error. The buffer it has in its hands and those in
`used_buffers` are dropped. -/
def fail (t : ℕ) (s : Shared) (c : CopyFrom) (inHands : List DMABuffer) (e : DmaError) :
    Shared × CopyFrom :=
  ({ s with lost := s.lost ++ (inHands ++ c.buffers).map fun b => (t, b) },
    { c with usedBuffers := [], pc := .returned (.error e) })

/-- The number of bytes that go through the buffer. -/
def bttThis (c : CopyFrom) (buffer : DMABuffer) : ℕ :=
  if c.btt < buffer.size then c.btt else buffer.size

/-- The transfer that the call issues. -/
def transfer (c : CopyFrom) (s : Shared) (t : ℕ) (buffer : DMABuffer) : Transfer where
  owner := t
  offset := c.ptrBuffer
  desc := scheduleDmaTransfer s.isVersal buffer.addr c.ptrDevice (c.bttThis buffer) true c.stream

/-- The entries of `used_buffers` whose transfers are not counted stay. -/
def retained (c : CopyFrom) (used : ℕ) : List UsedBuffer :=
  c.usedBuffers.filter fun e => decide (used ≤ e.cntr)

/-- The caller's data after the bytes of a buffer have been copied to `data[offset..]`. -/
def overwrite (data : List Byte) (offset len : ℕ) (bytes : ByteMem) : List Byte :=
  data.mapIdx fun k old => if offset ≤ k ∧ k < offset + len then bytes (k - offset) else old

/-- **One step** of the call with number `t`. -/
def step (t : ℕ) (reply : Reply) (s : Shared) (c : CopyFrom) : Shared × CopyFrom :=
  match c.pc with
  | .loop => if 0 < c.btt then (s, c.goto (.update false)) else (s, c.goto .drain)
  | .update last =>
    if c.stream = true ∧ s.isVersal = false then fail t s c [] .streamsNotSupported
    else if reply = .failed then fail t s c [] .errorInterrupt
    else
      (s.onChannel c.stream fun ch => { ch with engine := ch.engine.checkForInterrupt },
        c.goto (.add last (s.channel c.stream).engine.pending))
  | .add true n =>
    (s.onChannel c.stream fun ch => { ch with intCntr := ch.intCntr + n }, c.goto .drain)
  | .add false n =>
    (s.onChannel c.stream fun ch => { ch with intCntr := ch.intCntr + n },
      c.goto (.load false))
  | .load last => (s, c.goto (.release last (s.channel c.stream).intCntr 0))
  | .release last used i =>
    match c.usedBuffers[i]? with
    | some entry =>
      if entry.cntr < used then
        match entry.buf with
        | some buffer =>
          (s, { c with usedBuffers := c.usedBuffers.set i { entry with buf := none }
                       pc := .copyback last used i entry buffer })
        | none => (s, c.goto (.release last used (i + 1)))
      else (s, c.goto (.retain last used))
    | none => (s, c.goto (.retain last used))
  | .copyback last used i entry buffer =>
    if reply = .failed then fail t s c [buffer] .dmaBufferAllocate
    else
      (s, { c with
        data := overwrite c.data entry.offset entry.len (s.mapped buffer.addr)
        copied := c.copied ++ [entry.cntr]
        pc := .give last used i buffer })
  | .give last used i buffer =>
    ({ s with fromDevBuffer := s.fromDevBuffer ++ [buffer] },
      c.goto (.release last used (i + 1)))
  | .retain true used => (s, { c with usedBuffers := c.retained used, pc := .update true })
  | .retain false used => (s, { c with usedBuffers := c.retained used, pc := .steal })
  | .steal =>
    match reply, s.fromDevBuffer with
    | .ok, buffer :: rest => ({ s with fromDevBuffer := rest }, c.goto (.toDev buffer))
    | _, _ => (s, c.goto (.update false))
  | .toDev buffer =>
    if reply = .failed then fail t s c [buffer] .dmaBufferAllocate
    else (s, c.goto (.lock buffer))
  | .lock buffer =>
    if s.lock = none then ({ s with lock := some t }, c.goto (.schedule buffer)) else (s, c)
  | .schedule buffer =>
    (s.onChannel c.stream fun ch => { ch with engine := ch.engine.issue (c.transfer s t buffer) },
      c.goto (.count buffer))
  | .count buffer =>
    ({ s.onChannel c.stream fun ch => { ch with cntr := ch.cntr + 1 } with lock := none },
      { c with
        usedBuffers := c.usedBuffers ++
          [⟨(s.channel c.stream).cntr, some buffer, c.ptrBuffer, c.bttThis buffer⟩]
        btt := c.btt - c.bttThis buffer
        ptrBuffer := c.ptrBuffer + c.bttThis buffer
        ptrDevice := if c.stream then c.ptrDevice
          else wrappingAdd c.ptrDevice (c.bttThis buffer)
        pc := .loop })
  | .drain =>
    if c.usedBuffers = [] then (s, c.goto (.returned (.ok ()))) else (s, c.goto (.load true))
  | .returned _ => (s, c)

attribute [elab_as_elim] step.fun_cases

/-! ### The transition system -/

/-- The shared state and the calls, of which call `t` is the one at index `t`. -/
structure System where
  shared : Shared
  calls : List CopyFrom

/-- The engine's channel for memory or for streams. -/
abbrev System.engine (s : System) (stream : Bool) : Engine ByteMem :=
  (s.shared.channel stream).engine

/-- A thread calls `copy_from` or `c2h_stream`, a call makes a step, or the engine completes a
transfer, when the device has the given memory, or raises an interrupt. -/
inductive Action where
  | call (stream : Bool) (ptr : DeviceAddress) (data : List Byte)
  | step (t : ℕ) (reply : Reply)
  | complete (stream : Bool) (device : ByteMem)
  | raise (stream : Bool)

/-- The bytes of a buffer after a transfer from the memory of the device. -/
def fetched (device : ByteMem) (x : Transfer) (old : ByteMem) : ByteMem :=
  fun k => if k < x.desc.size then device (wrappingAdd x.desc.addrDevice k) else old k

namespace System

/-- The DMA engine of a device with the given bounce buffers. -/
def new (buffers : List DMABuffer) (isVersal : Bool) (mapped : ℕ → ByteMem) : System where
  shared :=
    { fromDevBuffer := buffers
      channel := fun _ => ⟨0, 0, .idle⟩
      isVersal
      lock := none
      mapped
      lost := [] }
  calls := []

/-- The engine completes its next transfer: it writes the bytes to the buffer. -/
def complete (s : System) (stream : Bool) (device : ByteMem) : System :=
  let e := (s.engine stream)
  match e.issued[e.done]? with
  | some x =>
    { s with
      shared :=
        { s.shared.onChannel stream fun ch =>
            { ch with engine := ch.engine.complete fun _ => device } with
          mapped := Function.update s.shared.mapped x.desc.addrHost
            (fetched device x (s.shared.mapped x.desc.addrHost)) } }
  | none => s

/-- **One action.** -/
def step (s : System) : Action → System
  | .call stream ptr data => { s with calls := s.calls ++ [CopyFrom.new stream ptr data] }
  | .step t reply =>
    match s.calls[t]? with
    | some c =>
      let r := CopyFrom.step t reply s.shared c
      ⟨r.1, s.calls.set t r.2⟩
    | none => s
  | .complete stream device => s.complete stream device
  | .raise stream =>
    { s with
      shared := s.shared.onChannel stream fun ch => { ch with engine := ch.engine.raise } }

end System

end CopyFrom

end Tapasco
