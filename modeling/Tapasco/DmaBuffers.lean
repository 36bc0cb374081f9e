import Tapasco.Lib.Runs
import Mathlib.Algebra.Group.Nat.Defs

/-!
# The Table of DMA Buffers

A PCIe device has a table of 32 DMA buffers. User space names a buffer by its index in the
table for the requests to free and to synchronise it, and by a page offset to map it: the
first pages of the device file are the register spaces, and the buffers follow from page
four on. This module embeds `pcie_ioctl_dma_buffer_allocate`, `_free`, `_to_dev` and
`_from_dev`, `tlkm_device_mmap` with `addr2map_off` and `pcie_device_addr2map_off`, and the
offset that `UserSpaceDMA::new` computes.

The requests take the index from user space without a check, and the mapping computes it in
unsigned arithmetic. An index past the end of the table has no defined result.
-/

open List

namespace Tapasco.DmaBuffers

/-- `TLKM_PCIE_NUM_DMA_BUFFERS`. -/
def numDmaBuffers : ℕ := 32

def pageSize : ℕ := 4096

def efault : ℤ := 14

def emfile : ℤ := 24

def enxio : ℤ := 6

def eagain : ℤ := 11

/-- A `dma_buf`. A null pointer `ptr` marks a free slot. -/
structure DmaBuf where
  ptr : ℕ
  ptrDev : ℕ
  size : ℕ
  fromDev : Bool
  deriving DecidableEq

def DmaBuf.zero : DmaBuf :=
  ⟨0, 0, 0, false⟩

def newTable : List DmaBuf :=
  List.replicate numDmaBuffers .zero

/-- What the kernel and the device say about addresses: `virt_to_phys`, which is not zero for memory
that `kmalloc` returns, and the physical addresses of the three register spaces. -/
structure Platform where
  virtToPhys : ℕ → ℕ
  virtToPhys_pos : ∀ ptr, ptr ≠ 0 → 0 < virtToPhys ptr
  statusBase : ℕ
  archBase : ℕ
  platBase : ℕ

/-- The requests. An allocation comes with what `kmalloc` and `dma_map_single` return: the pointer,
null on failure, and the device address, `none` for an error. A mapping comes with the page number
of the offset, the length, and whether `remap_pfn_range` succeeds. -/
inductive Request where
  | allocate (size : ℕ) (fromDevice : Bool) (ptr : ℕ) (handle : Option ℕ)
  | free (bufferId : ℕ)
  | toDev (bufferId : ℕ)
  | fromDev (bufferId : ℕ)
  | mmap (pgoff : Fin (2 ^ 52)) (sz : ℕ) (remapped : Bool)

/-- What comes of a request: an error, the index and device address of a new buffer, an operation on
a slot, a mapping of some bytes from a frame on, or something undefined. -/
inductive Outcome where
  | refused (err : ℤ)
  | allocated (bufferId : ℕ) (addr : ℕ)
  | done (slot : DmaBuf)
  | mapped (frame : ℕ) (sz : ℕ)
  | undefined
  deriving DecidableEq

/-- `pcie_device_dma_allocate_buffer`: the device address, or an error. -/
def pcieDeviceDmaAllocateBuffer (ptr : ℕ) (handle : Option ℕ) : Except ℤ ℕ :=
  if ptr = 0 then .error (-efault)
  else
    match handle with
    | none => .error (-efault)
    | some h => .ok h

def pcieIoctlDmaBufferAllocate (t : List DmaBuf) (size : ℕ) (fromDevice : Bool) (ptr : ℕ)
    (handle : Option ℕ) : Outcome × List DmaBuf :=
  match t.findIdx? fun b => b.ptr == 0 with
  | none => (.refused (-emfile), t)
  | some i =>
    match pcieDeviceDmaAllocateBuffer ptr handle with
    | .error err => (.refused err, t.set i .zero)
    | .ok h => (.allocated i h, t.set i ⟨ptr, h, size, fromDevice⟩)

/-- The requests that name a slot: what they do to it. None of them looks at the index or at
the slot first. -/
def bufferOp (t : List DmaBuf) (bufferId : ℕ) (f : DmaBuf → DmaBuf) : Outcome × List DmaBuf :=
  match t[bufferId]? with
  | none => (.undefined, t)
  | some b => (.done b, t.set bufferId (f b))

def pcieIoctlDmaBufferFree (t : List DmaBuf) (bufferId : ℕ) : Outcome × List DmaBuf :=
  bufferOp t bufferId fun _ => .zero

def pcieIoctlDmaBufferToDev (t : List DmaBuf) (bufferId : ℕ) : Outcome × List DmaBuf :=
  bufferOp t bufferId id

def pcieIoctlDmaBufferFromDev (t : List DmaBuf) (bufferId : ℕ) : Outcome × List DmaBuf :=
  bufferOp t bufferId id

/-- `buffer_requested`, in 64-bit arithmetic. -/
def bufferRequested (addr : ℕ) : ℕ :=
  (addr / pageSize + 2 ^ 64 - 4) % 2 ^ 64

/-- `pcie_device_addr2map_off`: the physical address, zero if the slot is free, and `none` if
the index is past the table. -/
def pcieDeviceAddr2mapOff (p : Platform) (t : List DmaBuf) (addr : ℕ) : Option ℕ :=
  (t[bufferRequested addr]?).map fun b => if b.ptr ≠ 0 then p.virtToPhys b.ptr else 0

def addr2mapOff (p : Platform) (t : List DmaBuf) (addr : ℕ) : Option ℕ :=
  if addr = 0 then some p.statusBase
  else if addr = 4096 then some p.archBase
  else if addr = 8192 then some p.platBase
  else pcieDeviceAddr2mapOff p t addr

def tlkmDeviceMmap (p : Platform) (t : List DmaBuf) (pgoff sz : ℕ) (remapped : Bool) : Outcome :=
  match addr2mapOff p t (pgoff * pageSize) with
  | none => .undefined
  | some kptr =>
    if kptr = 0 then .refused (-enxio)
    else if remapped then .mapped (kptr / pageSize) sz
    else .refused (-eagain)

/-- The offset in the device file at which `UserSpaceDMA::new` maps a buffer. -/
def mmapOffset (bufferId : ℕ) : ℕ :=
  (4 + bufferId) * 4096

/-- What comes of a request, and the table afterwards. -/
def request (p : Platform) (t : List DmaBuf) : Request → Outcome × List DmaBuf
  | .allocate size fromDevice ptr handle =>
    pcieIoctlDmaBufferAllocate t size fromDevice ptr handle
  | .free bufferId => pcieIoctlDmaBufferFree t bufferId
  | .toDev bufferId => pcieIoctlDmaBufferToDev t bufferId
  | .fromDev bufferId => pcieIoctlDmaBufferFromDev t bufferId
  | .mmap pgoff sz remapped => (tlkmDeviceMmap p t pgoff sz remapped, t)

def step (p : Platform) (t : List DmaBuf) (r : Request) : List DmaBuf :=
  (request p t r).2

/-! ### What a request may touch -/

def Allocated (t : List DmaBuf) (bufferId : ℕ) : Prop :=
  ∃ b, t[bufferId]? = some b ∧ b.ptr ≠ 0

/-- A request that names a slot is carried out on that slot, which is allocated, or it is
refused. -/
def ProperOp (t : List DmaBuf) (bufferId : ℕ) (o : Outcome) : Prop :=
  (∃ b, t[bufferId]? = some b ∧ b.ptr ≠ 0 ∧ o = .done b) ∨ ∃ err, o = .refused err

/-- The request touches only what it may: an allocation takes a free slot, an operation and a
mapping of a buffer an allocated one, and every other request is refused. -/
def Proper (p : Platform) (t : List DmaBuf) (r : Request) : Prop :=
  match r, (request p t r).1 with
  | .allocate _ _ _ _, o =>
    (∃ i h b, o = .allocated i h ∧ t[i]? = some b ∧ b.ptr = 0) ∨ ∃ err, o = .refused err
  | .free bufferId, o => ProperOp t bufferId o
  | .toDev bufferId, o => ProperOp t bufferId o
  | .fromDev bufferId, o => ProperOp t bufferId o
  | .mmap pgoff sz _, o =>
    (pgoff.val < 3 ∧ ∃ frame, o = .mapped frame sz) ∨
      (∃ bufferId b, pgoff.val = 4 + bufferId ∧ t[bufferId]? = some b ∧ b.ptr ≠ 0 ∧
        o = .mapped (p.virtToPhys b.ptr / pageSize) sz) ∨
      ∃ err, o = .refused err

/-- Mapping the file at the offset of the buffer maps the memory of the buffer from its first
byte on. -/
def Resolves (p : Platform) (t : List DmaBuf) (bufferId : ℕ) (b : DmaBuf) : Prop :=
  ∃ frame, (∀ sz, tlkmDeviceMmap p t (mmapOffset bufferId / pageSize) sz true =
    .mapped frame sz) ∧ frame * pageSize = p.virtToPhys b.ptr

/-- The request names an allocated buffer, or a page that is not page three and not past the
table; the memory of a new buffer starts on a page boundary. -/
def Wellformed (p : Platform) (t : List DmaBuf) : Request → Prop
  | .allocate _ _ ptr handle =>
    (∃ b ∈ t, b.ptr = 0) → ptr ≠ 0 → handle.isSome → pageSize ∣ p.virtToPhys ptr
  | .free bufferId => Allocated t bufferId
  | .toDev bufferId => Allocated t bufferId
  | .fromDev bufferId => Allocated t bufferId
  | .mmap pgoff _ _ => pgoff.val < 4 + numDmaBuffers ∧ pgoff.val ≠ 3

section

variable {p : Platform} {t : List DmaBuf}

/-! ### The requests on a slot -/

theorem properOp_bufferOp_iff (id : ℕ) (f : DmaBuf → DmaBuf) :
    ProperOp t id (bufferOp t id f).1 ↔ Allocated t id := by
  rw [bufferOp]
  cases h : t[id]? with
  | none => simp [ProperOp, Allocated, h]
  | some b => simp [ProperOp, Allocated, h]

theorem bufferOp_table (id : ℕ) (f : DmaBuf → DmaBuf) :
    (bufferOp t id f).2.length = t.length ∧
      ∀ c ∈ (bufferOp t id f).2, c ∈ t ∨ ∃ b ∈ t, c = f b := by
  rw [bufferOp]
  cases h : t[id]? with
  | none => exact ⟨rfl, fun c hc => .inl hc⟩
  | some b =>
    refine ⟨length_set, fun c hc => ?_⟩
    rcases mem_or_eq_of_mem_set hc with hc | rfl
    · exact .inl hc
    · exact .inr ⟨b, mem_of_getElem? h, rfl⟩

/-! ### Allocation -/

theorem allocate_spec (size : ℕ) (fd : Bool) (ptr : ℕ) (handle : Option ℕ) :
    let r := pcieIoctlDmaBufferAllocate t size fd ptr handle
    (∃ i b h, t[i]? = some b ∧ b.ptr = 0 ∧ ptr ≠ 0 ∧ handle = some h ∧
        r = (.allocated i h, t.set i ⟨ptr, h, size, fd⟩)) ∨
      (((∀ b ∈ t, b.ptr ≠ 0) ∨ ptr = 0 ∨ handle = none) ∧ ∃ err, r.1 = .refused err ∧
          (r.2 = t ∨ ∃ i b, t[i]? = some b ∧ b.ptr = 0 ∧ r.2 = t.set i .zero)) := by
  intro r
  cases hi : t.findIdx? fun b => b.ptr == 0 with
  | none =>
    right
    have hr : r = (.refused (-emfile), t) := by
      simp only [r, pcieIoctlDmaBufferAllocate, hi]
    refine ⟨.inl fun b hb => ?_, _, congrArg Prod.fst hr, .inl (congrArg Prod.snd hr)⟩
    simpa using findIdx?_eq_none_iff.mp hi b hb
  | some i =>
    obtain ⟨hlt, hf, -⟩ := findIdx?_eq_some_iff_getElem.mp hi
    have hre : ∀ err, pcieDeviceDmaAllocateBuffer ptr handle = .error err →
        ∃ err, r.1 = .refused err ∧
          (r.2 = t ∨ ∃ i b, t[i]? = some b ∧ b.ptr = 0 ∧ r.2 = t.set i .zero) := by
      intro err he
      have hr : r = (.refused err, t.set i .zero) := by
        simp only [r, pcieIoctlDmaBufferAllocate, hi, he]
      exact ⟨err, congrArg Prod.fst hr, .inr ⟨i, t[i], getElem?_eq_getElem hlt,
        by simpa using hf, congrArg Prod.snd hr⟩⟩
    by_cases hp : ptr = 0
    · exact .inr ⟨.inr (.inl hp),
        hre (-efault) (by simp only [pcieDeviceDmaAllocateBuffer, if_pos hp])⟩
    cases handle with
    | none =>
      exact .inr ⟨.inr (.inr rfl),
        hre (-efault) (by simp only [pcieDeviceDmaAllocateBuffer, if_neg hp])⟩
    | some h =>
      left
      refine ⟨i, t[i], h, getElem?_eq_getElem hlt, by simpa using hf, hp, rfl, ?_⟩
      simp only [r, pcieIoctlDmaBufferAllocate, hi, pcieDeviceDmaAllocateBuffer, if_neg hp]

/-! ### Mapping -/

variable {pgoff : ℕ}

theorem bufferRequested_eq (h : 4 ≤ pgoff) (hlt : pgoff < 2 ^ 64) :
    bufferRequested (pgoff * pageSize) = pgoff - 4 := by
  rw [bufferRequested, Nat.mul_div_cancel _ (by decide : 0 < pageSize)]
  omega

theorem bufferRequested_three : bufferRequested (3 * pageSize) = 2 ^ 64 - 1 := by
  decide

theorem addr2mapOff_of_ge (h : 3 ≤ pgoff) :
    addr2mapOff p t (pgoff * pageSize) = pcieDeviceAddr2mapOff p t (pgoff * pageSize) := by
  have hge : 3 * 4096 ≤ pgoff * pageSize := Nat.mul_le_mul_right 4096 h
  rw [addr2mapOff, if_neg (by omega), if_neg (by omega), if_neg (by omega)]

theorem addr2mapOff_of_allocated (hl : t.length = numDmaBuffers) {id : ℕ}
    {b : DmaBuf} (hb : t[id]? = some b) (hp : b.ptr ≠ 0) :
    addr2mapOff p t ((4 + id) * pageSize) = some (p.virtToPhys b.ptr) := by
  obtain ⟨hlt, -⟩ := List.getElem?_eq_some_iff.mp hb
  rw [hl, numDmaBuffers] at hlt
  rw [addr2mapOff_of_ge (by omega), pcieDeviceAddr2mapOff,
    bufferRequested_eq (by omega) (by omega), Nat.add_sub_cancel_left, hb]
  simp only [Option.map_some, if_pos hp]

/-- **The offset of a buffer** leads to its memory exactly when that memory starts on a page
boundary. -/
theorem resolves_iff (hl : t.length = numDmaBuffers) {id : ℕ} {b : DmaBuf}
    (hb : t[id]? = some b) (hp : b.ptr ≠ 0) :
    Resolves p t id b ↔ pageSize ∣ p.virtToPhys b.ptr := by
  have hpg : mmapOffset id / pageSize = 4 + id := Nat.mul_div_cancel _ (by decide)
  have hpo := p.virtToPhys_pos b.ptr hp
  have hm (sz : ℕ) : tlkmDeviceMmap p t (mmapOffset id / pageSize) sz true =
      .mapped (p.virtToPhys b.ptr / pageSize) sz := by
    simp only [tlkmDeviceMmap, hpg, addr2mapOff_of_allocated hl hb hp,
      if_neg (Nat.ne_of_gt hpo), if_true]
  constructor
  · rintro ⟨frame, -, hf⟩
    exact ⟨frame, by rw [← hf, mul_comm]⟩
  · intro hd
    exact ⟨_, hm, Nat.div_mul_cancel hd⟩

theorem tlkmDeviceMmap_of_some {kptr : ℕ} (sz : ℕ) (rm : Bool)
    (h : addr2mapOff p t (pgoff * pageSize) = some kptr) :
    tlkmDeviceMmap p t pgoff sz rm = .mapped (kptr / pageSize) sz ∨
      ∃ err, tlkmDeviceMmap p t pgoff sz rm = .refused err := by
  simp only [tlkmDeviceMmap, h]
  split
  · exact .inr ⟨_, rfl⟩
  · cases rm
    · exact .inr ⟨_, rfl⟩
    · exact .inl rfl

theorem tlkmDeviceMmap_undefined (hl : t.length = numDmaBuffers) (hlt : pgoff < 2 ^ 52)
    (h : pgoff = 3 ∨ 4 + numDmaBuffers ≤ pgoff) (sz : ℕ) (rm : Bool) :
    tlkmDeviceMmap p t pgoff sz rm = .undefined := by
  have ho : t[bufferRequested (pgoff * pageSize)]? = none := by
    rw [List.getElem?_eq_none_iff, hl]
    rcases h with rfl | h
    · rw [bufferRequested_three]
      decide
    · rw [bufferRequested_eq (by omega) (by omega)]
      omega
  have hge : 3 ≤ pgoff := by omega
  simp only [tlkmDeviceMmap, addr2mapOff_of_ge hge, pcieDeviceAddr2mapOff, ho, Option.map_none]

theorem proper_mmap_iff (hl : t.length = numDmaBuffers) (pgoff : Fin (2 ^ 52)) (sz : ℕ)
    (rm : Bool) :
    Proper p t (.mmap pgoff sz rm) ↔ pgoff.val < 4 + numDmaBuffers ∧ pgoff.val ≠ 3 := by
  constructor
  · intro h
    by_contra hba
    have hu := tlkmDeviceMmap_undefined (p := p) hl pgoff.isLt (by omega) sz rm
    simp [Proper, request, hu] at h
  · rintro ⟨hlt, hne⟩
    by_cases hr : pgoff.val < 3
    · obtain ⟨kptr, hk⟩ : ∃ kptr, addr2mapOff p t (pgoff.val * pageSize) = some kptr := by
        have hc : pgoff.val = 0 ∨ pgoff.val = 1 ∨ pgoff.val = 2 := by omega
        rcases hc with h | h | h <;> rw [h]
        · exact ⟨_, rfl⟩
        · exact ⟨_, rfl⟩
        · exact ⟨_, rfl⟩
      rcases tlkmDeviceMmap_of_some sz rm hk with h | h
      · exact .inl ⟨hr, _, h⟩
      · exact .inr (.inr h)
    · obtain ⟨bufferId, hi⟩ : ∃ bufferId, pgoff.val = 4 + bufferId :=
        ⟨pgoff.val - 4, by omega⟩
      have hin : bufferId < t.length := by omega
      have hb := getElem?_eq_getElem hin
      by_cases hp : t[bufferId].ptr = 0
      · -- The slot is free, and the address zero stands for that.
        have hk : addr2mapOff p t (pgoff.val * pageSize) = some 0 := by
          rw [addr2mapOff_of_ge (by omega), pcieDeviceAddr2mapOff,
            bufferRequested_eq (by omega) (by omega), hi, Nat.add_sub_cancel_left, hb]
          simp [hp]
        refine .inr (.inr ⟨-enxio, ?_⟩)
        simp only [request, tlkmDeviceMmap, hk, if_true]
      · have hk := addr2mapOff_of_allocated (p := p) hl hb hp
        rw [← hi] at hk
        rcases tlkmDeviceMmap_of_some sz rm hk with h | h
        · exact .inr (.inl ⟨bufferId, _, hi, hb, hp, h⟩)
        · exact .inr (.inr h)

/-- **Requests that touch what they may** name an allocated buffer, or a page that is not page three
and not past the table, or are allocations. -/
theorem proper_iff (hl : t.length = numDmaBuffers) (r : Request) :
    Proper p t r ↔
      match r with
      | .allocate _ _ _ _ => True
      | .free bufferId => Allocated t bufferId
      | .toDev bufferId => Allocated t bufferId
      | .fromDev bufferId => Allocated t bufferId
      | .mmap pgoff _ _ => pgoff.val < 4 + numDmaBuffers ∧ pgoff.val ≠ 3 := by
  cases r with
  | allocate size fromDevice ptr handle =>
    refine ⟨fun _ => trivial, fun _ => ?_⟩
    rcases allocate_spec (t := t) size fromDevice ptr handle with
      ⟨i, b, h, hb, hf, -, -, hr⟩ | ⟨-, err, he, -⟩
    · exact .inl ⟨i, h, b, congrArg Prod.fst hr, hb, hf⟩
    · exact .inr ⟨err, he⟩
  | free bufferId => exact properOp_bufferOp_iff bufferId _
  | toDev bufferId => exact properOp_bufferOp_iff bufferId _
  | fromDev bufferId => exact properOp_bufferOp_iff bufferId _
  | mmap pgoff sz remapped => exact proper_mmap_iff hl pgoff sz remapped

/-! ### Runs -/

/-- The memory of every allocated buffer starts on a page boundary. -/
def Aligned (p : Platform) (t : List DmaBuf) : Prop :=
  ∀ b ∈ t, b.ptr ≠ 0 → pageSize ∣ p.virtToPhys b.ptr

/-- Every allocated buffer is found at its offset. -/
def AllResolve (p : Platform) (t : List DmaBuf) : Prop :=
  ∀ bufferId b, t[bufferId]? = some b → b.ptr ≠ 0 → Resolves p t bufferId b

theorem allResolve_iff (hl : t.length = numDmaBuffers) : AllResolve p t ↔ Aligned p t := by
  constructor
  · intro h b hb hp
    obtain ⟨i, hi⟩ := mem_iff_getElem?.mp hb
    exact (resolves_iff hl hi hp).mp (h i b hi hp)
  · intro h i b hi hp
    exact (resolves_iff hl hi hp).mpr (h b (mem_of_getElem? hi) hp)

theorem Aligned.of_bufferOp (h : Aligned p t) (id : ℕ) {f : DmaBuf → DmaBuf}
    (hf : ∀ b, f b = b ∨ f b = .zero) : Aligned p (bufferOp t id f).2 := by
  intro c hc hp
  rcases (bufferOp_table id f).2 c hc with hc | ⟨b, hb, rfl⟩
  · exact h c hc hp
  rcases hf b with he | he
  · rw [he] at hp ⊢
    exact h b hb hp
  · rw [he] at hp
    exact absurd rfl hp

theorem aligned_allocate_iff (h : Aligned p t) (size : ℕ) (fd : Bool) (ptr : ℕ)
    (handle : Option ℕ) :
    Aligned p (pcieIoctlDmaBufferAllocate t size fd ptr handle).2 ↔
      ((∃ b ∈ t, b.ptr = 0) → ptr ≠ 0 → handle.isSome → pageSize ∣ p.virtToPhys ptr) := by
  rcases allocate_spec (t := t) size fd ptr handle with
    ⟨i, b, hd, hb, hf, hp, rfl, hr⟩ | ⟨hn, err, -, hr⟩
  · have hi := (List.getElem?_eq_some_iff.mp hb).1
    rw [hr]
    constructor
    · intro ha _ _ _
      exact ha _ (mem_set hi _) hp
    · intro hdv c hc hcp
      rcases mem_or_eq_of_mem_set hc with hc | rfl
      · exact h c hc hcp
      · exact hdv ⟨b, mem_of_getElem? hb, hf⟩ hp rfl
  · refine iff_of_true ?_ ?_
    · rcases hr with hr | ⟨i, -, -, -, hr⟩
      · rwa [hr]
      · rw [hr]
        intro c hc hcp
        rcases mem_or_eq_of_mem_set hc with hc | rfl
        · exact h c hc hcp
        · exact absurd rfl hcp
    · rintro ⟨b, hb, hf⟩ hp hs
      rcases hn with hn | hn | hn
      · exact absurd hf (hn b hb)
      · exact absurd hn hp
      · rw [hn] at hs
        exact absurd hs Bool.false_ne_true

theorem length_step (r : Request) : (step p t r).length = t.length := by
  cases r with
  | allocate size fromDevice ptr handle =>
    rcases allocate_spec (t := t) size fromDevice ptr handle with
      ⟨i, b, h, -, -, -, -, hr⟩ | ⟨-, err, -, hr | ⟨i, -, -, -, hr⟩⟩
    · exact (congrArg (fun r => r.2.length) hr).trans length_set
    · exact congrArg List.length hr
    · exact (congrArg List.length hr).trans length_set
  | free bufferId => exact (bufferOp_table bufferId _).1
  | toDev bufferId => exact (bufferOp_table bufferId _).1
  | fromDev bufferId => exact (bufferOp_table bufferId _).1
  | mmap pgoff sz remapped => rfl

theorem step_iff (hl : t.length = numDmaBuffers) (ha : Aligned p t) (r : Request) :
    AllResolve p (step p t r) ∧ Proper p t r ↔ Wellformed p t r := by
  rw [allResolve_iff ((length_step r).trans hl), proper_iff hl]
  cases r with
  | allocate size fromDevice ptr handle =>
    exact (and_iff_left trivial).trans (aligned_allocate_iff ha size fromDevice ptr handle)
  | free bufferId => exact and_iff_right (ha.of_bufferOp bufferId fun _ => .inr rfl)
  | toDev bufferId => exact and_iff_right (ha.of_bufferOp bufferId fun _ => .inl rfl)
  | fromDev bufferId => exact and_iff_right (ha.of_bufferOp bufferId fun _ => .inl rfl)
  | mmap pgoff sz remapped => exact and_iff_right ha

end

/-- **The table of DMA buffers**: in a run from the table of a new device, every allocated buffer is
found at its offset and every request touches only what it may, exactly when all requests are well
formed. -/
theorem table_safe_iff (p : Platform) (rs : List Request) :
    (∀ t ∈ Runs.trace (step p) newTable rs, AllResolve p t) ∧
        Runs.AllSteps (step p) (Proper p) newTable rs ↔
      Runs.AllSteps (step p) (Wellformed p) newTable rs := by
  refine Runs.trace_and_steps_iff (J := fun t => t.length = numDmaBuffers ∧ Aligned p t)
    ?_ ?_ ?_ ?_ rs
  · rintro t ⟨hlen, hal⟩
    exact (allResolve_iff hlen).mpr hal
  · rintro t r ⟨hlen, hal⟩ hr
    have hlen' := (length_step (p := p) r).trans hlen
    exact ⟨hlen', (allResolve_iff hlen').mp ((step_iff hlen hal r).mpr hr).1⟩
  · rintro t r ⟨hlen, hal⟩
    exact step_iff hlen hal r
  · refine ⟨length_replicate, fun b hb hptr => ?_⟩
    rw [eq_of_mem_replicate hb] at hptr
    exact absurd rfl hptr

/-- A platform on which physical addresses are the kernel's own. -/
def flatPlatform : Platform :=
  ⟨id, fun _ h => Nat.pos_of_ne_zero h, 4096, 8192, 12288⟩

/-- Requests that are not refused: an index past the table, a slot that was never allocated, and
page three, whose index wraps around. A buffer that starts inside a page is not mapped at its start.
-/
theorem unchecked_buffer_ids :
    (request flatPlatform newTable (.toDev 32)).1 = .undefined ∧
      (request flatPlatform newTable (.free 0)).1 = .done .zero ∧
      (request flatPlatform newTable (.mmap 3 4096 true)).1 = .undefined ∧
      (∀ r ∈ [Request.toDev 32, .free 0, .mmap 3 4096 true], ¬ Proper flatPlatform newTable r) ∧
      ∃ t, t = step flatPlatform newTable (.allocate 64 true 8256 (some 8256)) ∧
        Allocated t 0 ∧ tlkmDeviceMmap flatPlatform t (mmapOffset 0 / pageSize) 64 true =
          .mapped 2 64 ∧ 2 * pageSize ≠ flatPlatform.virtToPhys 8256 := by
  have hlen : newTable.length = numDmaBuffers := length_replicate
  have hfree : ∀ i, ¬ Allocated newTable i := by
    rintro i ⟨b, hb, hptr⟩
    rw [eq_of_mem_replicate (mem_of_getElem? hb)] at hptr
    exact hptr rfl
  refine ⟨by decide, by decide, by decide +kernel, ?_, _, rfl, ⟨_, rfl, by decide⟩, by decide,
    by decide⟩
  intro r hr
  simp only [mem_cons, not_mem_nil, or_false] at hr
  rw [proper_iff hlen]
  rcases hr with rfl | rfl | rfl
  · exact hfree 32
  · exact hfree 0
  · exact fun h => h.2 rfl

end Tapasco.DmaBuffers
