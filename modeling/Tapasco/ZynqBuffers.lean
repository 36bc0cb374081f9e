import Tapasco.DeviceFile
import Tapasco.FixedSizePool

/-!
# Copies to and from the DMA Buffers of a Zynq

On a Zynq the driver keeps the DMA buffers of its clients in a pool of fixed size
(`zynq_dmamgmt.c`). A request names a buffer by its device address, for which the driver searches
the pool (`zynq_ioctl.c`), and a copy is between user space and the memory of the buffer. This
module embeds the allocation, the search, the release and the requests, one request at a time,
next to the memory the driver has from `dma_alloc_coherent` and has not given back.

The counters of transferred bytes are not modelled. Addresses and lengths have 64 bits, so the
driver's tests for negative ones never apply, and `-1` is the greatest address.
-/

open Function List

namespace Tapasco.Zynq

open DeviceFile Pool

/-! ### The pool of buffers -/

def einval : ℤ := 22

def eacces : ℤ := 13

theorem neg_einval_lt_zero : -einval < 0 := by decide

theorem neg_enomem_lt_zero : -enomem < 0 := by decide

/-- `ZYNQ_DMAMGMT_POOLSZ`. -/
@[irreducible] def poolSz : ℕ := 1024

theorem poolSz_lt : poolSz < 2 ^ 64 - 1 := by
  rw [poolSz]
  decide

structure DmaBuf where
  len : ℕ
  dmaAddr : ℕ
  kvirtAddr : ℕ
  deriving DecidableEq

/-- `init_dma_buf_t`. -/
def initDmaBuf : DmaBuf :=
  ⟨0, 0, 0⟩

/-- The pool `_dmabuf`, and the buffers the driver has from the kernel and has not given back. -/
structure State where
  fsp : Fsp
  elems : ℕ → DmaBuf
  live : List DmaBuf

/-- `zynq_dmamgmt_init`. -/
def State.new : State :=
  ⟨fspInit, fun _ => initDmaBuf, []⟩

/-- What the kernel answers during a request. `dma_alloc_coherent` returns an address for the
processor and one for the device, or nothing; no live buffer has the same device address, and
neither address is zero. The copies from and to user space may fail. -/
structure Kernel where
  dmaAllocCoherent : List DmaBuf → ℕ → Option (ℕ × ℕ)
  copyFails : Bool
  kvirt_ne_zero : ∀ live len kvirt dma,
    dmaAllocCoherent live len = some (kvirt, dma) → kvirt ≠ 0
  dma_ne_zero : ∀ live len kvirt dma, dmaAllocCoherent live len = some (kvirt, dma) → dma ≠ 0
  dma_fresh : ∀ live len kvirt dma, dmaAllocCoherent live len = some (kvirt, dma) →
    ∀ b ∈ live, b.dmaAddr ≠ dma

/-- `find_dma_addr`, and `zynq_dmamgmt_get_id`. -/
def findDmaAddr (s : State) (addr : ℕ) : ℤ :=
  match (List.range poolSz).find? fun id => (s.elems id).dmaAddr = addr with
  | some id => id
  | none => -1

/-- A number with a sign as a `handle_t`. -/
def asHandle (id : ℤ) : ℕ :=
  (id % 2 ^ 64).toNat

/-- `zynq_dmamgmt_alloc`: the address for the device, or zero. -/
def zynqDmamgmtAlloc (k : Kernel) (s : State) (len : ℕ) : State × ℕ :=
  match fspGet poolSz s.fsp with
  | (none, fsp) => ({ s with fsp }, 0)
  | (some id, fsp) =>
    match k.dmaAllocCoherent s.live len with
    | none =>
      (⟨fspPut poolSz id fsp, Function.update s.elems id { s.elems id with kvirtAddr := 0 },
        s.live⟩, 0)
    | some (kvirtAddr, dmaAddr) =>
      (⟨fsp, Function.update s.elems id ⟨len, dmaAddr, kvirtAddr⟩,
        ⟨len, dmaAddr, kvirtAddr⟩ :: s.live⟩, dmaAddr)

def zynqDmamgmtDealloc (s : State) (id : ℕ) : State × ℤ :=
  if id < poolSz ∧ (s.elems id).kvirtAddr ≠ 0 then
    (⟨fspPut poolSz id s.fsp, Function.update s.elems id initDmaBuf, s.live.erase (s.elems id)⟩, 0)
  else (s, 1)

def zynqDmamgmtDeallocDma (s : State) (addr : ℕ) : State × ℤ :=
  zynqDmamgmtDealloc s (asHandle (findDmaAddr s addr))

def zynqDmamgmtGet (s : State) (id : ℕ) : Option DmaBuf :=
  if poolSz ≤ id ∨ s.fsp.locked id = false then none else some (s.elems id)

/-! ### The requests -/

/-- `struct tlkm_mm_cmd`. -/
structure MmCmd where
  sz : ℕ
  devAddr : ℕ

/-- `struct tlkm_copy_cmd`. -/
structure CopyCmd where
  length : ℕ
  userAddr : ℕ
  devAddr : ℕ

/-- A call of `copy_from_user` or `copy_to_user`: the addresses and the number of bytes. -/
structure UserCopy where
  kvirtAddr : ℕ
  userAddr : ℕ
  length : ℕ

/-- The effect of a request: the state, the command as it is copied back, the return value, and the
copies between the driver's memory and user space. -/
structure Reply (γ : Type) where
  state : State
  cmd : γ
  ret : ℤ
  copies : List UserCopy

def noAddr : ℕ := 2 ^ 64 - 1

/-- `zynq_ioctl_alloc`. The address in the command is taken for an id. -/
def zynqIoctlAlloc (k : Kernel) (s : State) (cmd : MmCmd) : Reply MmCmd :=
  if cmd.sz = 0 ∨ cmd.sz > 2 ^ 27 then ⟨s, cmd, -einval, []⟩
  else if (zynqDmamgmtGet s cmd.devAddr).isSome then ⟨s, cmd, -einval, []⟩
  else
    match zynqDmamgmtAlloc k s cmd.sz with
    | (s, dmaAddr) =>
      if dmaAddr = 0 then ⟨s, cmd, -enomem, []⟩ else ⟨s, { cmd with devAddr := dmaAddr }, 0, []⟩

def zynqIoctlFree (s : State) (cmd : MmCmd) : Reply MmCmd :=
  ⟨(zynqDmamgmtDeallocDma s cmd.devAddr).1, { cmd with devAddr := noAddr }, 0, []⟩

/-- The buffer with a device address, as both copies look it up. -/
def lookup (s : State) (addr : ℕ) : Option DmaBuf :=
  zynqDmamgmtGet s (asHandle (findDmaAddr s addr))

/-- The end of both copies, for the buffer that was found, with what is returned if there is none.
-/
def userCopy (k : Kernel) (s : State) (cmd : CopyCmd) (err : ℤ) : Reply CopyCmd :=
  match lookup s cmd.devAddr with
  | none => ⟨s, cmd, -err, []⟩
  | some dmab =>
    if dmab.kvirtAddr = 0 then ⟨s, cmd, -err, []⟩
    else ⟨s, cmd, if k.copyFails then -eacces else 0, [⟨dmab.kvirtAddr, cmd.userAddr, cmd.length⟩]⟩

/-- `zynq_ioctl_copyto`: it allocates a buffer if there is none with the address. -/
def zynqIoctlCopyto (k : Kernel) (s : State) (cmd : CopyCmd) : Reply CopyCmd :=
  match lookup s cmd.devAddr with
  | some _ => userCopy k s cmd enomem
  | none =>
    let r := zynqIoctlAlloc k s ⟨cmd.length, noAddr⟩
    let cmd := { cmd with devAddr := r.cmd.devAddr }
    if r.ret ≠ 0 then ⟨r.state, cmd, r.ret, []⟩ else userCopy k r.state cmd enomem

def zynqIoctlCopyfrom (k : Kernel) (s : State) (cmd : CopyCmd) : Reply CopyCmd :=
  userCopy k s cmd einval

def zynqIoctlAllocCopyto (k : Kernel) (s : State) (mm : MmCmd) (copy : CopyCmd) :
    Reply (MmCmd × CopyCmd) :=
  let r := zynqIoctlAlloc k s mm
  if r.ret ≠ 0 then ⟨r.state, (r.cmd, copy), r.ret, []⟩
  else
    let c := zynqIoctlCopyto k r.state { copy with devAddr := r.cmd.devAddr }
    ⟨c.state, (r.cmd, c.cmd), c.ret, c.copies⟩

def zynqIoctlCopyfromFree (k : Kernel) (s : State) (mm : MmCmd) (copy : CopyCmd) :
    Reply (MmCmd × CopyCmd) :=
  let c := zynqIoctlCopyfrom k s copy
  if c.ret ≠ 0 then ⟨c.state, (mm, c.cmd), c.ret, c.copies⟩
  else
    let r := zynqIoctlFree c.state { mm with devAddr := c.cmd.devAddr }
    ⟨r.state, (r.cmd, c.cmd), r.ret, c.copies⟩

inductive Request where
  | alloc (cmd : MmCmd)
  | free (cmd : MmCmd)
  | copyto (cmd : CopyCmd)
  | copyfrom (cmd : CopyCmd)
  | allocCopyto (mm : MmCmd) (copy : CopyCmd)
  | copyfromFree (mm : MmCmd) (copy : CopyCmd)

/-- The state after a request, with what the kernel answers. -/
def step (s : State) (a : Kernel × Request) : State :=
  match a.2 with
  | .alloc cmd => (zynqIoctlAlloc a.1 s cmd).state
  | .free cmd => (zynqIoctlFree s cmd).state
  | .copyto cmd => (zynqIoctlCopyto a.1 s cmd).state
  | .copyfrom cmd => (zynqIoctlCopyfrom a.1 s cmd).state
  | .allocCopyto mm copy => (zynqIoctlAllocCopyto a.1 s mm copy).state
  | .copyfromFree mm copy => (zynqIoctlCopyfromFree a.1 s mm copy).state

/-! ### The invariant of the pool -/

/-- Between requests the slots in use hold the live buffers, with different addresses other than
zero, and the others are empty. -/
structure Inv (s : State) : Prop where
  mem_live : ∀ id < poolSz, s.fsp.locked id = true → s.elems id ∈ s.live
  empty : ∀ id < poolSz, s.fsp.locked id = false → s.elems id = initDmaBuf
  slot : ∀ b ∈ s.live, ∃ id < poolSz, s.fsp.locked id = true ∧ s.elems id = b
  dma_ne_zero : ∀ b ∈ s.live, b.dmaAddr ≠ 0
  kvirt_ne_zero : ∀ b ∈ s.live, b.kvirtAddr ≠ 0
  dma_inj : ∀ id < poolSz, ∀ jd < poolSz, s.fsp.locked id = true → s.fsp.locked jd = true →
    (s.elems id).dmaAddr = (s.elems jd).dmaAddr → id = jd
  nodup : s.live.Nodup

theorem inv_new : Inv State.new where
  mem_live _ _ hl := Bool.noConfusion hl
  empty _ _ _ := rfl
  slot _ hb := absurd hb not_mem_nil
  dma_ne_zero _ hb := absurd hb not_mem_nil
  kvirt_ne_zero _ hb := absurd hb not_mem_nil
  dma_inj _ _ _ _ hl := Bool.noConfusion hl
  nodup := nodup_nil

section

variable {s : State} {k : Kernel} {addr : ℕ}

theorem asHandle_natCast {id : ℕ} (hi : id < poolSz) : asHandle id = id := by
  have hlt := hi.trans poolSz_lt
  rw [asHandle]
  omega

theorem asHandle_findDmaAddr_cases (s : State) (addr : ℕ) :
    (∃ id < poolSz, (s.elems id).dmaAddr = addr ∧ asHandle (findDmaAddr s addr) = id) ∨
    (∀ id < poolSz, (s.elems id).dmaAddr ≠ addr) ∧ poolSz ≤ asHandle (findDmaAddr s addr) := by
  rw [findDmaAddr]
  cases hf : (List.range poolSz).find? fun id => (s.elems id).dmaAddr = addr with
  | none =>
    refine .inr ⟨fun id hi => ?_, poolSz_lt.le⟩
    simpa using find?_eq_none.mp hf id (List.mem_range.mpr hi)
  | some id =>
    have hi := List.mem_range.mp (mem_of_find?_eq_some hf)
    exact .inl ⟨id, hi, by simpa using find?_some hf, asHandle_natCast hi⟩

theorem zynqDmamgmtGet_of_lt {id : ℕ} (hi : id < poolSz) (hl : s.fsp.locked id = true) :
    zynqDmamgmtGet s id = some (s.elems id) := by
  rw [zynqDmamgmtGet, if_neg]
  simp [hl, hi]

theorem Inv.eq_of_dmaAddr (h : Inv s) {b c : DmaBuf} (hb : b ∈ s.live) (hc : c ∈ s.live)
    (heq : b.dmaAddr = c.dmaAddr) : b = c := by
  obtain ⟨id, hi, hl, rfl⟩ := h.slot b hb
  obtain ⟨jd, hj, hl', rfl⟩ := h.slot c hc
  rw [h.dma_inj id hi jd hj hl hl' heq]

theorem Inv.lookup_of_mem (h : Inv s) {b : DmaBuf} (hb : b ∈ s.live) :
    lookup s b.dmaAddr = some b := by
  rw [lookup]
  rcases asHandle_findDmaAddr_cases s b.dmaAddr with ⟨id, hi, hd, hh⟩ | ⟨hn, -⟩
  · rw [hh]
    cases hl : s.fsp.locked id with
    | false =>
      -- an empty slot has the address zero, which no live buffer has
      rw [h.empty id hi hl] at hd
      exact absurd hd.symm (h.dma_ne_zero b hb)
    | true =>
      rw [zynqDmamgmtGet_of_lt hi hl]
      exact congrArg some (h.eq_of_dmaAddr (h.mem_live id hi hl) hb hd)
  · obtain ⟨id, hi, -, rfl⟩ := h.slot b hb
    exact absurd rfl (hn id hi)

theorem Inv.lookup_of_forall_ne (h : Inv s) (hn : ∀ b ∈ s.live, b.dmaAddr ≠ addr) :
    lookup s addr = none := by
  rw [lookup, zynqDmamgmtGet, if_pos]
  rcases asHandle_findDmaAddr_cases s addr with ⟨id, hi, hd, hh⟩ | ⟨-, hl⟩
  · rw [hh]
    refine .inr (Bool.eq_false_iff.mpr fun hlo => ?_)
    exact hn _ (h.mem_live id hi hlo) hd
  · exact .inl hl

end

/-! ### Changes of the pool -/

/-- The slots and the live buffers are the same; the cursor of the pool may have moved. -/
structure Same (s t : State) : Prop where
  live : t.live = s.live
  elems : t.elems = s.elems
  locked : t.fsp.locked = s.fsp.locked

/-- A new buffer is in a slot that was free. -/
structure Adds (s : State) (b : DmaBuf) (id : ℕ) (t : State) : Prop where
  lt : id < poolSz
  free : s.fsp.locked id = false
  kvirt_ne_zero : b.kvirtAddr ≠ 0
  dma_ne_zero : b.dmaAddr ≠ 0
  dma_fresh : ∀ c ∈ s.live, c.dmaAddr ≠ b.dmaAddr
  live : t.live = b :: s.live
  elems : t.elems = Function.update s.elems id b
  locked : t.fsp.locked = Function.update s.fsp.locked id true

section

variable {s t : State} {k : Kernel} {b : DmaBuf} {id : ℕ}

theorem Inv.same (h : Inv s) (hs : Same s t) : Inv t := by
  obtain ⟨fsp, elems, live⟩ := t
  obtain ⟨rfl, rfl, hl⟩ := hs
  simp only at hl
  exact ⟨hl ▸ h.mem_live, hl ▸ h.empty, hl ▸ h.slot, h.dma_ne_zero,
    h.kvirt_ne_zero, hl ▸ h.dma_inj, h.nodup⟩

theorem Inv.adds (h : Inv s) (hs : Adds s b id t) : Inv t where
  mem_live jd hjd hl := by
    rw [hs.live, hs.elems]
    rw [hs.locked] at hl
    by_cases hne : jd = id
    · subst hne
      simp
    · rw [update_of_ne hne] at hl ⊢
      exact mem_cons_of_mem _ (h.mem_live jd hjd hl)
  empty jd hjd hl := by
    rw [hs.elems]
    rw [hs.locked] at hl
    by_cases hne : jd = id
    · subst hne
      simp at hl
    · rw [update_of_ne hne] at hl ⊢
      exact h.empty jd hjd hl
  slot c hc := by
    rw [hs.live, mem_cons] at hc
    rw [hs.elems, hs.locked]
    rcases hc with rfl | hc
    · exact ⟨id, hs.lt, by simp, by simp⟩
    obtain ⟨jd, hjd, hl, rfl⟩ := h.slot c hc
    have hne : jd ≠ id := by
      rintro rfl
      simp [hs.free] at hl
    exact ⟨jd, hjd, by rw [update_of_ne hne, hl], update_of_ne hne b s.elems⟩
  dma_ne_zero c hc := by
    rw [hs.live, mem_cons] at hc
    rcases hc with rfl | hc
    · exact hs.dma_ne_zero
    · exact h.dma_ne_zero c hc
  kvirt_ne_zero c hc := by
    rw [hs.live, mem_cons] at hc
    rcases hc with rfl | hc
    · exact hs.kvirt_ne_zero
    · exact h.kvirt_ne_zero c hc
  dma_inj id' hi' jd hjd hl hl' heq := by
    rw [hs.locked] at hl hl'
    rw [hs.elems] at heq
    by_cases hi : id' = id <;> by_cases hj : jd = id
    · rw [hi, hj]
    · subst hi
      rw [update_of_ne hj] at hl' heq
      rw [update_self] at heq
      exact absurd heq.symm (hs.dma_fresh _ (h.mem_live jd hjd hl'))
    · subst hj
      rw [update_of_ne hi] at hl heq
      rw [update_self] at heq
      exact absurd heq (hs.dma_fresh _ (h.mem_live id' hi' hl))
    · rw [update_of_ne hi] at hl heq
      rw [update_of_ne hj] at hl' heq
      exact h.dma_inj id' hi' jd hjd hl hl' heq
  nodup := by
    rw [hs.live]
    exact nodup_cons.mpr ⟨fun hm => hs.dma_fresh b hm rfl, h.nodup⟩

theorem Inv.dealloc (h : Inv s) (id : ℕ) : Inv (zynqDmamgmtDealloc s id).1 := by
  rw [zynqDmamgmtDealloc]
  split
  case isFalse => exact h
  rename_i hu
  obtain ⟨hid, hk⟩ := hu
  have hlo : s.fsp.locked id = true := by
    by_contra hf
    rw [h.empty id hid (by simpa using hf)] at hk
    exact hk rfl
  have ho : ∀ jd < poolSz, s.fsp.locked jd = true → jd ≠ id → s.elems jd ≠ s.elems id :=
    fun jd hjd hl' hne heq =>
      hne (h.dma_inj jd hjd id hid hl' hlo (congrArg DmaBuf.dmaAddr heq))
  rw [fspPut_eq hid]
  constructor
  case mem_live =>
    intro jd hjd hl'
    by_cases hne : jd = id
    · subst hne
      simp at hl'
    · simp only [update_of_ne hne] at hl' ⊢
      exact (mem_erase_of_ne (ho jd hjd hl' hne)).mpr (h.mem_live jd hjd hl')
  case empty =>
    intro jd hjd hf
    by_cases hne : jd = id
    · subst hne
      simp
    · simp only [update_of_ne hne] at hf ⊢
      exact h.empty jd hjd hf
  case slot =>
    intro b hb
    obtain ⟨hne, hb⟩ := (h.nodup.mem_erase_iff).mp hb
    obtain ⟨jd, hjd, hl', rfl⟩ := h.slot b hb
    have hne' : jd ≠ id := by
      rintro rfl
      exact hne rfl
    exact ⟨jd, hjd, by simp only [update_of_ne hne', hl'], update_of_ne hne' _ _⟩
  case dma_ne_zero => exact fun b hb => h.dma_ne_zero b (mem_of_mem_erase hb)
  case kvirt_ne_zero => exact fun b hb => h.kvirt_ne_zero b (mem_of_mem_erase hb)
  case dma_inj =>
    intro id' hi' jd hjd hl hloc heq
    have hi : id' ≠ id := by
      rintro rfl
      simp at hl
    have hj : jd ≠ id := by
      rintro rfl
      simp at hloc
    simp only [update_of_ne hi, update_of_ne hj] at hl hloc heq
    exact h.dma_inj id' hi' jd hjd hl hloc heq
  case nodup => exact h.nodup.erase _

theorem zynqDmamgmtAlloc_cases (h : Inv s) (k : Kernel) (len : ℕ) :
    Same s (zynqDmamgmtAlloc k s len).1 ∧ (zynqDmamgmtAlloc k s len).2 = 0 ∨
    ∃ b id, b.len = len ∧ Adds s b id (zynqDmamgmtAlloc k s len).1 ∧
      (zynqDmamgmtAlloc k s len).2 = b.dmaAddr := by
  rw [zynqDmamgmtAlloc]
  rcases hg : fspGet poolSz s.fsp with ⟨ret, fsp⟩
  have hc := fspGet_cases poolSz s.fsp
  simp only [hg] at hc
  rcases hc with ⟨id, hi, hf, rfl, hl⟩ | ⟨rfl, hl⟩
  · cases hk : k.dmaAllocCoherent s.live len with
    | none =>
      refine .inl ⟨⟨rfl, ?_, ?_⟩, rfl⟩
      · have he : { s.elems id with kvirtAddr := 0 } = s.elems id := by
          rw [h.empty id hi hf]
          rfl
        simp only [he, update_eq_self]
      · simp only [fspPut_eq hi, hl, update_idem]
        rw [← hf, update_eq_self]
    | some addrs =>
      obtain ⟨kvirtAddr, dmaAddr⟩ := addrs
      refine .inr ⟨⟨len, dmaAddr, kvirtAddr⟩, id, rfl, ?_, rfl⟩
      exact ⟨hi, hf, k.kvirt_ne_zero _ _ _ _ hk, k.dma_ne_zero _ _ _ _ hk,
        k.dma_fresh _ _ _ _ hk, rfl, rfl, hl⟩
  · exact .inl ⟨⟨rfl, rfl, hl⟩, rfl⟩

theorem zynqDmamgmtAlloc_ne_zero {len : ℕ} (hi : id < poolSz) (hle : s.fsp.curr ≤ id)
    (hf : s.fsp.locked id = false) (hk : (k.dmaAllocCoherent s.live len).isSome) :
    (zynqDmamgmtAlloc k s len).2 ≠ 0 := by
  have hsz : poolSz < 2 ^ 32 := by
    rw [poolSz]
    decide
  obtain ⟨⟨kvirtAddr, dmaAddr⟩, hs⟩ := Option.isSome_iff_exists.mp hk
  rw [zynqDmamgmtAlloc]
  rcases hg : fspGet poolSz s.fsp with ⟨_ | ret, fsp⟩
  · have hl := locked_of_fspGet_eq_none hsz (congrArg Prod.fst hg) hi hle
    rw [hf] at hl
    exact Bool.noConfusion hl
  · simp only [hs]
    exact k.dma_ne_zero _ _ _ _ hs

/-! ### One request -/

theorem zynqIoctlAlloc_cases (h : Inv s) (k : Kernel) (cmd : MmCmd) :
    Same s (zynqIoctlAlloc k s cmd).state ∧ (zynqIoctlAlloc k s cmd).ret < 0 ∨
    ∃ b id, b.len = cmd.sz ∧ Adds s b id (zynqIoctlAlloc k s cmd).state ∧
      (zynqIoctlAlloc k s cmd).ret = 0 ∧ (zynqIoctlAlloc k s cmd).cmd.devAddr = b.dmaAddr := by
  rw [zynqIoctlAlloc]
  split
  · exact .inl ⟨⟨rfl, rfl, rfl⟩, neg_einval_lt_zero⟩
  split
  · exact .inl ⟨⟨rfl, rfl, rfl⟩, neg_einval_lt_zero⟩
  have hc := zynqDmamgmtAlloc_cases h k cmd.sz
  generalize zynqDmamgmtAlloc k s cmd.sz = r at hc
  obtain ⟨t, dmaAddr⟩ := r
  rcases hc with ⟨hs, hz⟩ | ⟨b, id, hl, ha, had⟩
  · simp only at hz ⊢
    rw [if_pos hz]
    exact .inl ⟨hs, neg_enomem_lt_zero⟩
  · simp only at had ⊢
    rw [if_neg (had ▸ ha.dma_ne_zero)]
    exact .inr ⟨b, id, hl, ha, rfl, had⟩

theorem ret_zynqIoctlAlloc {cmd : MmCmd} (hp : cmd.sz ≠ 0) (hm : cmd.sz ≤ 2 ^ 27)
    (hi : poolSz ≤ cmd.devAddr) (ha : (zynqDmamgmtAlloc k s cmd.sz).2 ≠ 0) :
    (zynqIoctlAlloc k s cmd).ret = 0 := by
  have hg : ¬ (zynqDmamgmtGet s cmd.devAddr).isSome = true := by
    rw [zynqDmamgmtGet, if_pos (.inl hi)]
    simp
  rw [zynqIoctlAlloc, if_neg (by omega), if_neg hg]
  generalize zynqDmamgmtAlloc k s cmd.sz = r at ha
  obtain ⟨t, dmaAddr⟩ := r
  simp only at ha ⊢
  rw [if_neg ha]

theorem Inv.ioctlAlloc (h : Inv s) (k : Kernel) (cmd : MmCmd) :
    Inv (zynqIoctlAlloc k s cmd).state := by
  rcases zynqIoctlAlloc_cases h k cmd with ⟨hs, -⟩ | ⟨b, id, -, ha, -⟩
  · exact h.same hs
  · exact h.adds ha

theorem state_userCopy (k : Kernel) (s : State) (cmd : CopyCmd) (err : ℤ) :
    (userCopy k s cmd err).state = s := by
  rw [userCopy]
  split
  · rfl
  · split <;> rfl

variable {cmd : CopyCmd}

/-- A copy for the address of a live buffer is with its memory, from its first byte on, of the
length of the request. -/
theorem Inv.userCopy_of_mem (h : Inv s) (k : Kernel) (err : ℤ) (hb : b ∈ s.live)
    (hd : b.dmaAddr = cmd.devAddr) :
    userCopy k s cmd err =
      ⟨s, cmd, if k.copyFails then -eacces else 0, [⟨b.kvirtAddr, cmd.userAddr, cmd.length⟩]⟩ := by
  rw [userCopy, ← hd, h.lookup_of_mem hb]
  exact if_neg (h.kvirt_ne_zero b hb)

theorem Inv.userCopy_of_forall_ne (h : Inv s) (k : Kernel) (err : ℤ)
    (hn : ∀ b ∈ s.live, b.dmaAddr ≠ cmd.devAddr) : userCopy k s cmd err = ⟨s, cmd, -err, []⟩ := by
  rw [userCopy, h.lookup_of_forall_ne hn]

theorem Inv.copyto_of_mem (h : Inv s) (k : Kernel) (hb : b ∈ s.live)
    (hd : b.dmaAddr = cmd.devAddr) :
    zynqIoctlCopyto k s cmd =
      ⟨s, cmd, if k.copyFails then -eacces else 0, [⟨b.kvirtAddr, cmd.userAddr, cmd.length⟩]⟩ := by
  rw [zynqIoctlCopyto, ← hd, h.lookup_of_mem hb]
  exact h.userCopy_of_mem k enomem hb hd

/-- A copy to an address that no live buffer has: a refused allocation, or a copy to the new
buffer. -/
theorem Inv.copyto_of_forall_ne (h : Inv s) (k : Kernel)
    (hn : ∀ b ∈ s.live, b.dmaAddr ≠ cmd.devAddr) :
    Same s (zynqIoctlCopyto k s cmd).state ∧
      (zynqIoctlCopyto k s cmd).ret = (zynqIoctlAlloc k s ⟨cmd.length, noAddr⟩).ret ∧
      (zynqIoctlAlloc k s ⟨cmd.length, noAddr⟩).ret < 0 ∧ (zynqIoctlCopyto k s cmd).copies = [] ∨
    ∃ b id, b.len = cmd.length ∧ Adds s b id (zynqIoctlCopyto k s cmd).state ∧
      (zynqIoctlCopyto k s cmd).cmd.devAddr = b.dmaAddr ∧
      (zynqIoctlCopyto k s cmd).copies = [⟨b.kvirtAddr, cmd.userAddr, cmd.length⟩] := by
  rw [zynqIoctlCopyto, h.lookup_of_forall_ne hn]
  rcases zynqIoctlAlloc_cases h k ⟨cmd.length, noAddr⟩ with
    ⟨hs, hr⟩ | ⟨b, id, hl, had, hr, ha⟩
  · simp only
    rw [if_pos hr.ne]
    exact .inl ⟨hs, rfl, hr, rfl⟩
  simp only
  rw [if_neg (not_not_intro hr)]
  have hb : b ∈ (zynqIoctlAlloc k s ⟨cmd.length, noAddr⟩).state.live := by
    rw [had.live]
    exact mem_cons_self
  rw [(h.adds had).userCopy_of_mem k enomem hb ha.symm]
  exact .inr ⟨b, id, hl, had, ha, rfl⟩

theorem Inv.copies_ne_nil (h : Inv s) (hn : ∀ b ∈ s.live, b.dmaAddr ≠ cmd.devAddr)
    (ha : (zynqIoctlAlloc k s ⟨cmd.length, noAddr⟩).ret = 0) :
    (zynqIoctlCopyto k s cmd).copies ≠ [] := by
  rcases h.copyto_of_forall_ne k hn with ⟨-, -, hr, -⟩ | ⟨b, id, -, -, -, hc⟩
  · exact absurd ha hr.ne
  · rw [hc]
    exact cons_ne_nil _ _

theorem Inv.copyto (h : Inv s) (k : Kernel) (cmd : CopyCmd) :
    Inv (zynqIoctlCopyto k s cmd).state := by
  rw [zynqIoctlCopyto]
  split
  · rw [state_userCopy]
    exact h
  · simp only
    split
    · exact h.ioctlAlloc k _
    · rw [state_userCopy]
      exact h.ioctlAlloc k _

theorem Inv.step (h : Inv s) (a : Kernel × Request) : Inv (step s a) := by
  obtain ⟨k, r⟩ := a
  cases r with
  | alloc cmd => exact h.ioctlAlloc k cmd
  | free cmd => exact h.dealloc _
  | copyto cmd => exact h.copyto k cmd
  | copyfrom cmd =>
    have hs : (zynqIoctlCopyfrom k s cmd).state = s := state_userCopy k s cmd einval
    simpa only [Zynq.step, hs] using h
  | allocCopyto mm copy =>
    simp only [Zynq.step, zynqIoctlAllocCopyto]
    split
    · exact h.ioctlAlloc k mm
    · exact (h.ioctlAlloc k mm).copyto k _
  | copyfromFree mm copy =>
    have hs : (zynqIoctlCopyfrom k s copy).state = s := state_userCopy k s copy einval
    simp only [Zynq.step, zynqIoctlCopyfromFree]
    split
    · rw [hs]
      exact h
    · rw [hs]
      exact h.dealloc _

end

/-! ### Copies stay in their buffers -/

/-- Every byte of the copy is one of the first `n` bytes of the buffer. -/
def UserCopy.Within (c : UserCopy) (b : DmaBuf) (n : ℕ) : Prop :=
  ∀ x, c.kvirtAddr ≤ x → x < c.kvirtAddr + c.length →
    ∃ i < n, i < b.len ∧ x = b.kvirtAddr + i

/-- A copy request is **confined**: it copies only the bytes of its length, at the start of the live
buffer with its address, or it is refused. -/
def Confined (s : State) (cmd : CopyCmd) (r : Reply CopyCmd) : Prop :=
  (∃ b ∈ s.live, b.dmaAddr = cmd.devAddr ∧ cmd.length ≤ b.len ∧
    ∀ c ∈ r.copies, c.Within b cmd.length) ∨ r.ret < 0 ∧ r.copies = []

/-- The reply to a copy to an address that no live buffer has: it is refused, or there is a new live
buffer of its length, whose address is returned, and the copy is confined to it. -/
def Allocates (s : State) (cmd : CopyCmd) (r : Reply CopyCmd) : Prop :=
  (r.ret < 0 ∧ r.copies = [] ∧ r.state.live = s.live) ∨
  ∃ b, r.state.live = b :: s.live ∧ b.dmaAddr = r.cmd.devAddr ∧ b.len = cmd.length ∧
    ∀ c ∈ r.copies, c.Within b cmd.length

/-- The copies of a state stay in their buffers: a request that is not longer than the live buffer
with its address is confined to it, and where there is none, a copy from the device is refused and
one to the device allocates a buffer. -/
structure CopiesConfined (s : State) (k : Kernel) (cmd : CopyCmd) : Prop where
  copyfrom : ∀ b ∈ s.live, b.dmaAddr = cmd.devAddr → cmd.length ≤ b.len →
    ∀ c ∈ (zynqIoctlCopyfrom k s cmd).copies, c.Within b cmd.length
  copyto : ∀ b ∈ s.live, b.dmaAddr = cmd.devAddr → cmd.length ≤ b.len →
    ∀ c ∈ (zynqIoctlCopyto k s cmd).copies, c.Within b cmd.length
  copyfrom_refused : (∀ b ∈ s.live, b.dmaAddr ≠ cmd.devAddr) →
    (zynqIoctlCopyfrom k s cmd).ret = -einval ∧ (zynqIoctlCopyfrom k s cmd).copies = []
  copyto_allocates : (∀ b ∈ s.live, b.dmaAddr ≠ cmd.devAddr) →
    Allocates s cmd (zynqIoctlCopyto k s cmd)

/-- **Copies stay in their buffers** after every sequence of requests, whatever the kernel answers.
-/
theorem copies_confined (calls : List (Kernel × Request)) (k : Kernel) (cmd : CopyCmd) :
    CopiesConfined (Runs.run step State.new calls) k cmd := by
  have h : Inv (Runs.run step State.new calls) :=
    Runs.run_invariant (fun _ a h => h.step a) inv_new calls
  have hwithin : ∀ b : DmaBuf, cmd.length ≤ b.len →
      ∀ c ∈ [(⟨b.kvirtAddr, cmd.userAddr, cmd.length⟩ : UserCopy)], c.Within b cmd.length := by
    intro b hlen c hc x hle hlt
    rw [mem_singleton.mp hc] at hle hlt
    simp only at hle hlt
    exact ⟨x - b.kvirtAddr, by omega, by omega, by omega⟩
  constructor
  case copyfrom =>
    intro b hb hdma hlen
    rw [zynqIoctlCopyfrom, h.userCopy_of_mem k einval hb hdma]
    exact hwithin b hlen
  case copyto =>
    intro b hb hdma hlen
    rw [h.copyto_of_mem k hb hdma]
    exact hwithin b hlen
  case copyfrom_refused =>
    intro hnone
    rw [zynqIoctlCopyfrom, h.userCopy_of_forall_ne k einval hnone]
    exact ⟨rfl, rfl⟩
  case copyto_allocates =>
    intro hnone
    rcases h.copyto_of_forall_ne k hnone with
      ⟨hsame, hret, hneg, hcopies⟩ | ⟨b, id, hlen, hadds, haddr, hcopies⟩
    · exact .inl ⟨hret ▸ hneg, hcopies, hsame.live⟩
    · refine .inr ⟨b, hadds.live, haddr.symm, hlen, ?_⟩
      rw [hcopies]
      exact hwithin b hlen.ge

/-- A kernel with one region of coherent memory. -/
def oneRegion : Kernel where
  dmaAllocCoherent live _ := if live = [] then some (0xc0000000, 0x30000000) else none
  copyFails := false
  kvirt_ne_zero live len kvirt dma h := by
    split at h
    · cases h
      decide
    · cases h
  dma_ne_zero live len kvirt dma h := by
    split at h
    · cases h
      decide
    · cases h
  dma_fresh live len kvirt dma h := by
    split at h
    · rename_i hnil
      simp [hnil]
    · cases h

/-- Without any buffer, a copy of 64 bytes to the address `0x40000000` is not refused. -/
theorem unknown_address_allocated :
    ¬ Confined State.new ⟨64, 0x1000, 0x40000000⟩
      (zynqIoctlCopyto oneRegion State.new ⟨64, 0x1000, 0x40000000⟩) := by
  rintro (⟨b, hb, -⟩ | ⟨-, hcopies⟩)
  · exact absurd hb not_mem_nil
  · refine inv_new.copies_ne_nil (fun b hb => absurd hb not_mem_nil) ?_ hcopies
    have hpos : 0 < poolSz := by
      rw [poolSz]
      decide
    exact ret_zynqIoctlAlloc (by decide) (by decide) poolSz_lt.le
      (zynqDmamgmtAlloc_ne_zero hpos le_rfl rfl rfl)

end Tapasco.Zynq
