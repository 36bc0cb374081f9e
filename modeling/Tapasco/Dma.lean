import Tapasco.Pe
import Tapasco.Lib.Word

/-!
# The User-Space DMA Engine

The parts of `dma_user_space.rs` that both directions share: the bounce buffers, the
descriptors that `schedule_dma_transfer` writes to the engine, and the engine itself as far
as the code depends on it. The engine has one channel for each direction and each kind of
transfer (memory or stream). A channel completes its transfers in the order in which they
were issued and raises one interrupt for each of them, which the driver adds to an eventfd;
`check_for_interrupt` reads this number and sets it back to zero.
-/

open Word64

namespace Tapasco

/-- A bounce buffer: its number at the driver, its size, and its address on the bus. -/
structure DMABuffer where
  id : ℕ
  size : ℕ
  addr : ℕ
  deriving DecidableEq

/-- The errors of `dma_user_space.rs` after the construction. The lock is never poisoned. -/
inductive DmaError where
  | dmaBufferAllocate
  | errorInterrupt
  | tooManyInterrupts
  | streamsNotSupported
  deriving DecidableEq

/-- An attempt to take a buffer may have to be repeated, and an ioctl or a read of an eventfd may
fail. -/
inductive Reply where
  | ok
  | retry
  | failed
  deriving DecidableEq

/-- Where a Versal has the memory of the device. -/
def devOffset (isVersal : Bool) : ℕ :=
  if isVersal then 0x010000000000 else 0

/-- The registers of the engine that make up a transfer. -/
structure Descriptor where
  addrHost : ℕ
  addrDevice : ℕ
  size : ℕ
  cmd : ℕ

/-- What `schedule_dma_transfer` writes, with the command for the direction and kind. -/
def scheduleDmaTransfer (isVersal : Bool) (addrHost : ℕ) (addrDevice : DeviceAddress) (size : ℕ)
    (fromDevice stream : Bool) : Descriptor where
  addrHost
  addrDevice := wrappingAdd addrDevice (devOffset isVersal)
  size
  cmd :=
    if stream then if fromDevice then 0x01101000 else 0x01100001
    else if fromDevice then 0x10001000 else 0x10000001

/-- The piece of `n` bytes at `offset` of a caller's data. -/
def slice (data : List Byte) (offset n : ℕ) : List Byte :=
  (data.drop offset).take n

theorem length_slice {data : List Byte} {off n : ℕ} (h : off + n ≤ data.length) :
    (slice data off n).length = n := by
  rw [slice, List.length_take, List.length_drop]
  omega

/-- A transfer, with the call that issued it and the place of its bytes in the data of this
call. -/
structure Transfer where
  owner : ℕ
  offset : ℕ
  desc : Descriptor

/-- A channel of the engine: all transfers that were issued, a log of those that are
completed, the number of interrupts that were raised, and the number that is in the eventfd. -/
structure Engine (ρ : Type) where
  issued : List Transfer
  log : List ρ
  raised : ℕ
  pending : ℕ

namespace Engine

variable {ρ : Type}

/-- No transfer was issued. -/
def idle : Engine ρ where
  issued := []
  log := []
  raised := 0
  pending := 0

/-- The number of completed transfers. -/
def done (e : Engine ρ) : ℕ :=
  e.log.length

/-- A transfer is issued. -/
def issue (e : Engine ρ) (x : Transfer) : Engine ρ :=
  { e with issued := e.issued ++ [x] }

/-- The next transfer is completed, if there is one; `record` says what is logged for it. -/
def complete (e : Engine ρ) (record : Transfer → ρ) : Engine ρ :=
  match e.issued[e.done]? with
  | some x => { e with log := e.log ++ [record x] }
  | none => e

/-- The interrupt of the next completed transfer is raised, if there is one. -/
def raise (e : Engine ρ) : Engine ρ :=
  if e.raised < e.done then { e with raised := e.raised + 1, pending := e.pending + 1 } else e

/-- `check_for_interrupt` takes the interrupts that are in the eventfd. -/
def checkForInterrupt (e : Engine ρ) : Engine ρ :=
  { e with pending := 0 }

/-- Interrupts are raised for completed transfers, and only transfers that were issued are
completed. -/
structure InOrder (e : Engine ρ) : Prop where
  raised_le : e.raised ≤ e.done
  done_le : e.done ≤ e.issued.length

theorem inOrder_idle : InOrder (idle : Engine ρ) :=
  ⟨le_refl 0, le_refl 0⟩

variable {e : Engine ρ}

theorem InOrder.issue (h : e.InOrder) (x : Transfer) : (e.issue x).InOrder := by
  refine ⟨h.raised_le, h.done_le.trans ?_⟩
  rw [Engine.issue, List.length_append]
  exact Nat.le_add_right _ _

section

variable (e : Engine ρ) (rec : Transfer → ρ)

theorem complete_cases :
    e.complete rec = e ∨ ∃ x, e.issued[e.done]? = some x ∧
      e.complete rec = { e with log := e.log ++ [rec x] } := by
  rw [complete]
  split
  · rename_i x hx
    exact .inr ⟨x, hx, rfl⟩
  · exact .inl rfl

@[simp] theorem raised_complete : (e.complete rec).raised = e.raised := by
  rcases complete_cases e rec with heq | ⟨x, -, heq⟩ <;> rw [heq]

@[simp] theorem pending_complete : (e.complete rec).pending = e.pending := by
  rcases complete_cases e rec with heq | ⟨x, -, heq⟩ <;> rw [heq]

@[simp] theorem issued_complete : (e.complete rec).issued = e.issued := by
  rcases complete_cases e rec with heq | ⟨x, -, heq⟩ <;> rw [heq]

end

theorem InOrder.complete (h : e.InOrder) (rec : Transfer → ρ) : (e.complete rec).InOrder := by
  rcases complete_cases e rec with heq | ⟨x, hx, heq⟩ <;> rw [heq]
  · exact h
  · have hlt := (List.getElem?_eq_some_iff.mp hx).1
    refine ⟨h.raised_le.trans ?_, ?_⟩
    · rw [done, done, List.length_append]
      exact Nat.le_add_right _ _
    · rw [done, List.length_append]
      exact hlt

theorem raise_cases (e : Engine ρ) : e.raise = e ∨ e.raised < e.done ∧
    e.raise = { e with raised := e.raised + 1, pending := e.pending + 1 } := by
  rw [raise]
  split
  · rename_i hlt
    exact .inr ⟨hlt, rfl⟩
  · exact .inl rfl

@[simp] theorem issued_raise (e : Engine ρ) : e.raise.issued = e.issued := by
  rcases raise_cases e with heq | ⟨-, heq⟩ <;> rw [heq]

@[simp] theorem log_raise (e : Engine ρ) : e.raise.log = e.log := by
  rcases raise_cases e with heq | ⟨-, heq⟩ <;> rw [heq]

theorem InOrder.raise (h : e.InOrder) : e.raise.InOrder := by
  rcases raise_cases e with heq | ⟨hlt, heq⟩ <;> rw [heq]
  · exact h
  · exact ⟨hlt, h.done_le⟩

theorem InOrder.checkForInterrupt (h : e.InOrder) : e.checkForInterrupt.InOrder :=
  ⟨h.raised_le, h.done_le⟩

/-- What the engine does on its own: it completes transfers and raises interrupts in order, and the
interrupts that it raises are in the eventfd. -/
structure Works (e e' : Engine ρ) : Prop where
  issued : e'.issued = e.issued
  inOrder : e.InOrder → e'.InOrder
  raised : e'.raised + e.pending = e.raised + e'.pending
  done_le : e.done ≤ e'.done

/-- The engine may do nothing. -/
theorem Works.refl (e : Engine ρ) : e.Works e :=
  ⟨rfl, id, rfl, le_refl _⟩

theorem works_complete (rec : Transfer → ρ) (e : Engine ρ) : e.Works (e.complete rec) := by
  refine ⟨e.issued_complete rec, fun h => h.complete rec, by simp, ?_⟩
  rcases complete_cases e rec with heq | ⟨x, -, heq⟩ <;> rw [heq]
  rw [done, done, List.length_append]
  exact Nat.le_add_right _ _

theorem works_raise (e : Engine ρ) : e.Works e.raise := by
  refine ⟨e.issued_raise, InOrder.raise, ?_, by rw [done, done, log_raise]⟩
  rcases raise_cases e with heq | ⟨-, heq⟩ <;> rw [heq]
  exact add_right_comm _ _ _

end Engine

end Tapasco
