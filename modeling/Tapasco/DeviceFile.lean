import Tapasco.DmaBuffers
import Tapasco.IrqTable

/-!
# Clients of One Device File

Any number of clients can have the file of a PCIe device open at the same time. Through it
they register interrupts and allocate DMA buffers and general-purpose buffers. All of these
are kept for the device, none for the client: `tlkm_control_release`, which runs when a client
closes the file, and `pcie_device_miscdev_close`, which it calls, walk over everything the
device has. This module embeds the three requests and the close, one call at a time. What an
interrupt controller caches of the interrupt list is left to `IrqTable`.

Interrupts and buffers are told apart by the address of their memory, which is new for each.
Next to the state of the driver the model keeps its history: which client each address was
acquired for, and the addresses given back.
-/

open Lists List

namespace Tapasco.DeviceFile

open DmaBuffers

def enomem : ℤ := 12

structure GpBuf where
  buf : ℕ
  devAddr : ℕ
  size : ℕ
  bufferId : ℕ
  deriving DecidableEq

/-- What the driver keeps for the device, the next address, and the clients that have the file open;
then the addresses acquired so far, with the client, and those given back. -/
structure State where
  interrupts : List Irq.Entry
  dmaBuffer : List DmaBuf
  gpBuffer : List GpBuf
  brk : ℕ
  clients : List ℕ
  acquired : List (ℕ × ℕ)
  released : List ℕ

/-- A device that nobody has opened yet. No allocation returns address zero. -/
def State.new : State :=
  ⟨[], newTable, [], 1, [], [], []⟩

/-- The memory at the next address is acquired for a client. -/
def State.acquire (s : State) (client : ℕ) : State :=
  { s with brk := s.brk + 1, acquired := s.acquired ++ [(s.brk, client)] }

/-- `tlkm_device_reg_int`, with what `cls->pirq` returns. -/
def tlkmDeviceRegInt (s : State) (client peId fd : ℕ) (result : ℤ) : State × ℤ :=
  if s.interrupts.any fun e => e.irqNo == peId then (s, -efault)
  else if result ≠ 0 then ({ s.acquire client with released := s.released ++ [s.brk] }, result)
  else
    ({ s.acquire client with interrupts := Irq.insertEntry ⟨⟨peId, fd⟩, s.brk⟩ s.interrupts }, 0)

/-- `pcie_ioctl_dma_buffer_allocate`, with whether `kmalloc` succeeds and what
`dma_map_single` returns. -/
def dmaBufferAllocate (s : State) (client size : ℕ) (fromDevice kmalloc : Bool)
    (handle : Option ℕ) : State × Outcome :=
  let r := pcieIoctlDmaBufferAllocate s.dmaBuffer size fromDevice (if kmalloc then s.brk else 0)
    handle
  if kmalloc ∧ ∃ b ∈ s.dmaBuffer, b.ptr = 0 then
    ({ s.acquire client with dmaBuffer := r.2 }, r.1)
  else ({ s with dmaBuffer := r.2 }, r.1)

def nextBufferId (l : List GpBuf) : ℕ :=
  match l.getLast? with
  | none => 1
  | some tail => tail.bufferId + 1

/-- `pcie_ioctl_kernel_buffer_allocate`, with whether the two allocations succeed and the address of
the second one: the list, the return value, and the id of the buffer. The entries of the list have
addresses of 64 bits, so there are at most `2 ^ 64` of them. -/
def pcieIoctlKernelBufferAllocate (gpBuffer : List GpBuf) (buf size : ℕ) (kzalloc kmalloc : Bool) :
    List GpBuf × ℤ × ℕ :=
  if size > 4 * 2 ^ 20 then (gpBuffer, -enomem, 0)
  else if kzalloc = false ∨ 2 ^ 64 ≤ gpBuffer.length then (gpBuffer, -enomem, 0)
  else if kmalloc = false then (gpBuffer, -enomem, 0)
  else
    let bufferId := nextBufferId gpBuffer % 2 ^ 64
    (gpBuffer ++ [⟨buf, 0, size, bufferId⟩], 0, bufferId)

def kernelBufferAllocate (s : State) (client size : ℕ) (kzalloc kmalloc : Bool) : State × ℤ × ℕ :=
  let r := pcieIoctlKernelBufferAllocate s.gpBuffer s.brk size kzalloc kmalloc
  (if r.2.1 = 0 then { s.acquire client with gpBuffer := r.1 } else s, r.2)

/-- `pcie_device_dma_free_buffer`, with the address it gives back. -/
def pcieDeviceDmaFreeBuffer (b : DmaBuf) : DmaBuf × List ℕ :=
  ({ b with ptr := 0, ptrDev := 0 }, if b.ptr ≠ 0 then [b.ptr] else [])

/-- One round of the first loop of `pcie_device_miscdev_close`. -/
def closeDmaBuffer (b : DmaBuf) : DmaBuf × List ℕ :=
  if b.ptr ≠ 0 then
    ({ (pcieDeviceDmaFreeBuffer b).1 with size := 0 }, (pcieDeviceDmaFreeBuffer b).2)
  else (b, [])

def pcieDeviceMiscdevClose (s : State) : State :=
  { s with
    dmaBuffer := s.dmaBuffer.map fun b => (closeDmaBuffer b).1
    gpBuffer := []
    released := s.released ++ (s.dmaBuffer.flatMap fun b => (closeDmaBuffer b).2) ++
      s.gpBuffer.map GpBuf.buf }

/-- The loop of `tlkm_control_release` over the entries that are left. -/
def releaseLoop : List Irq.Entry → State → State
  | [], s => s
  | e :: l, s => releaseLoop l
      { s with interrupts := s.interrupts.filter fun x => x.addr != e.addr,
               released := s.released ++ [e.addr] }

def tlkmControlRelease (s : State) : State :=
  pcieDeviceMiscdevClose (releaseLoop s.interrupts s)

inductive Request where
  | openFile (client : ℕ)
  | regInt (client peId fd : ℕ) (result : ℤ)
  | dmaAllocate (client size : ℕ) (fromDevice kmalloc : Bool) (handle : Option ℕ)
  | gpAllocate (client size : ℕ) (kzalloc kmalloc : Bool)
  | close (client : ℕ)

/-- The effect of a request. Only a client that has the file open can make one. -/
def step (s : State) : Request → State
  | .openFile c => if c ∈ s.clients then s else { s with clients := c :: s.clients }
  | .regInt c peId fd result =>
    if c ∈ s.clients then (tlkmDeviceRegInt s c peId fd result).1 else s
  | .dmaAllocate c size fromDevice kmalloc handle =>
    if c ∈ s.clients then (dmaBufferAllocate s c size fromDevice kmalloc handle).1 else s
  | .gpAllocate c size kzalloc kmalloc =>
    if c ∈ s.clients then (kernelBufferAllocate s c size kzalloc kmalloc).1 else s
  | .close c =>
    if c ∈ s.clients then
      { tlkmControlRelease s with clients := s.clients.filter fun x => x != c }
    else s

/-! ### What the device holds -/

/-- The memory of the allocated DMA buffers. -/
def buffers (t : List DmaBuf) : List ℕ :=
  (t.filter fun b => b.ptr != 0).map DmaBuf.ptr

/-- The addresses of the interrupts and buffers the device holds. -/
def State.live (s : State) : List ℕ :=
  s.interrupts.map Irq.Entry.addr ++ buffers s.dmaBuffer ++ s.gpBuffer.map GpBuf.buf

/-- What has to become of everything: each address acquired is held, or was given back exactly once,
and nothing is held when nobody has the file open. -/
structure Accounted (s : State) : Prop where
  once : ∀ r ∈ s.acquired, s.released.count r.1 = if r.1 ∈ s.live then 0 else 1
  closed : s.clients = [] → s.live = []

/-- A close leaves what other clients acquired. -/
def Isolated (s : State) : Request → Prop
  | .close c => c ∈ s.clients → ∀ r ∈ s.acquired, r.2 ≠ c → r.1 ∈ s.live →
      r.1 ∈ (step s (.close c)).live
  | _ => True

/-- All that the device holds when a client closes was acquired for that client; and no mapping of a
new DMA buffer fails. -/
def Alone (s : State) : Request → Prop
  | .close c => c ∈ s.clients → ∀ r ∈ s.acquired, r.1 ∈ s.live → r.2 = c
  | .dmaAllocate c _ _ kmalloc handle =>
    c ∈ s.clients → kmalloc → (∃ b ∈ s.dmaBuffer, b.ptr = 0) → handle.isSome
  | _ => True

/-! ### The lists the device keeps -/

section

variable {s s' : State} {c : ℕ}

theorem perm_insertEntry (e : Irq.Entry) (l : List Irq.Entry) :
    (Irq.insertEntry e l).Perm (e :: l) := by
  induction l with
  | nil => exact List.Perm.refl _
  | cons x l ih =>
    rw [Irq.insertEntry]
    by_cases h : e.irqNo < x.irqNo
    · rw [if_pos h]
    · rw [if_neg h]
      exact (ih.cons x).trans (List.Perm.swap e x l)

theorem perm_buffers_set {t : List DmaBuf} {i : ℕ} {b : DmaBuf} (b' : DmaBuf)
    (hb : t[i]? = some b) (hf : b.ptr = 0) (hp : b'.ptr ≠ 0) :
    (buffers (t.set i b')).Perm (b'.ptr :: buffers t) := by
  obtain ⟨pre, post, rfl, rfl⟩ := exists_append_of_getElem? hb
  rw [set_append_cons]
  simp only [buffers, filter_append, filter_cons, hf, bne_self_eq_false, hp,
    bne_iff_ne, ne_eq, not_false_eq_true, if_true, map_append, map_cons,
    Bool.false_eq_true, if_false]
  exact perm_middle

theorem buffers_set_zero {t : List DmaBuf} {i : ℕ} {b : DmaBuf} (hb : t[i]? = some b)
    (hf : b.ptr = 0) : buffers (t.set i .zero) = buffers t := by
  obtain ⟨pre, post, rfl, rfl⟩ := exists_append_of_getElem? hb
  rw [set_append_cons]
  simp [buffers, filter_append, hf, DmaBuf.zero]

theorem buffers_cons (b : DmaBuf) (t : List DmaBuf) :
    buffers (b :: t) = (if b.ptr ≠ 0 then [b.ptr] else []) ++ buffers t := by
  by_cases h : b.ptr = 0 <;> simp [buffers, h]

theorem closeDmaBuffer_eq (b : DmaBuf) :
    (closeDmaBuffer b).1.ptr = 0 ∧ (closeDmaBuffer b).2 = if b.ptr ≠ 0 then [b.ptr] else [] := by
  rw [closeDmaBuffer]
  by_cases h : b.ptr = 0
  · rw [if_neg (not_not_intro h), if_neg (not_not_intro h)]
    exact ⟨h, rfl⟩
  · rw [if_pos h]
    exact ⟨rfl, rfl⟩

theorem close_buffers (t : List DmaBuf) :
    buffers (t.map fun b => (closeDmaBuffer b).1) = [] ∧
      (t.flatMap fun b => (closeDmaBuffer b).2) = buffers t := by
  induction t with
  | nil => exact ⟨rfl, rfl⟩
  | cons b t ih =>
    obtain ⟨hp, hf⟩ := closeDmaBuffer_eq b
    rw [map_cons, buffers_cons, ih.1, flatMap_cons, ih.2, buffers_cons, hf, hp]
    exact ⟨rfl, rfl⟩

theorem releaseLoop_eq (l : List Irq.Entry) (s : State) :
    releaseLoop l s =
      { s with
        interrupts := s.interrupts.filter fun x => ! (l.any fun e => e.addr == x.addr)
        released := s.released ++ l.map Irq.Entry.addr } := by
  induction l generalizing s with
  | nil => simp [releaseLoop]
  | cons e l ih =>
    rw [releaseLoop, ih]
    simp [filter_filter, Bool.and_comm, bne, Bool.beq_comm (α := ℕ)]

theorem close_live (s : State) :
    (tlkmControlRelease s).live = [] ∧ (tlkmControlRelease s).released = s.released ++ s.live := by
  obtain ⟨hn, ha⟩ := close_buffers s.dmaBuffer
  have he : (s.interrupts.filter fun x => ! (s.interrupts.any fun e => e.addr == x.addr)) =
      [] := by
    rw [filter_eq_nil_iff]
    intro x hx
    simpa using ⟨x, hx, rfl⟩
  constructor
  · simp only [tlkmControlRelease, pcieDeviceMiscdevClose, releaseLoop_eq, State.live, he,
      hn, map_nil, append_nil]
  · simp only [tlkmControlRelease, pcieDeviceMiscdevClose, releaseLoop_eq, State.live, ha,
      append_assoc]

/-! ### What a request does to the accounts -/

/-- The request leaves the accounts as they are. -/
structure Same (s s' : State) : Prop where
  brk : s'.brk = s.brk
  clients : s'.clients = s.clients
  acquired : s'.acquired = s.acquired
  released : s'.released = s.released
  live : s'.live = s.live

/-- The request acquires the next address for a client; it holds these addresses more, and
gives back those. -/
structure Acquires (s s' : State) (c : ℕ) (held given : List ℕ) : Prop where
  brk : s'.brk = s.brk + 1
  clients : s'.clients = s.clients
  acquired : s'.acquired = s.acquired ++ [(s.brk, c)]
  released : s'.released = s.released ++ given
  live : s'.live.Perm (held ++ s.live)

theorem regInt_effect (s : State) (c peId fd : ℕ) (res : ℤ) :
    Same s (tlkmDeviceRegInt s c peId fd res).1 ∨
      Acquires s (tlkmDeviceRegInt s c peId fd res).1 c [] [s.brk] ∨
      Acquires s (tlkmDeviceRegInt s c peId fd res).1 c [s.brk] [] := by
  rw [tlkmDeviceRegInt]
  by_cases ht : s.interrupts.any (fun e => e.irqNo == peId) = true
  · rw [if_pos ht]
    exact .inl ⟨rfl, rfl, rfl, rfl, rfl⟩
  rw [if_neg ht]
  right
  by_cases hr : res ≠ 0
  · rw [if_pos hr]
    exact .inl ⟨rfl, rfl, rfl, rfl, List.Perm.refl _⟩
  rw [if_neg hr]
  refine .inr ⟨rfl, rfl, rfl, (append_nil _).symm, ?_⟩
  have hp := (perm_insertEntry ⟨⟨peId, fd⟩, s.brk⟩ s.interrupts).map Irq.Entry.addr
  exact (hp.append_right _).append_right _

theorem pcieIoctlKernelBufferAllocate_cases (l : List GpBuf) (buf size : ℕ)
    (kzalloc kmalloc : Bool) :
    pcieIoctlKernelBufferAllocate l buf size kzalloc kmalloc = (l, -enomem, 0) ∨
      l.length < 2 ^ 64 ∧ pcieIoctlKernelBufferAllocate l buf size kzalloc kmalloc =
        (l ++ [⟨buf, 0, size, nextBufferId l % 2 ^ 64⟩], 0, nextBufferId l % 2 ^ 64) := by
  rw [pcieIoctlKernelBufferAllocate]
  split
  · exact .inl rfl
  · split
    · exact .inl rfl
    · split
      · exact .inl rfl
      · rename_i hr _
        exact .inr ⟨Nat.lt_of_not_le fun hle => hr (.inr hle), rfl⟩

theorem gpAllocate_effect (s : State) (c size : ℕ) (kzalloc kmalloc : Bool) :
    Same s (kernelBufferAllocate s c size kzalloc kmalloc).1 ∨
      Acquires s (kernelBufferAllocate s c size kzalloc kmalloc).1 c [s.brk] [] := by
  rw [kernelBufferAllocate]
  obtain heq | ⟨-, heq⟩ :=
    pcieIoctlKernelBufferAllocate_cases s.gpBuffer s.brk size kzalloc kmalloc <;> simp only [heq]
  · exact .inl ⟨rfl, rfl, rfl, rfl, rfl⟩
  · refine .inr ⟨rfl, rfl, rfl, (append_nil _).symm, ?_⟩
    simp only [if_true, State.live, State.acquire, map_append, map_cons, map_nil, ← append_assoc]
    exact perm_append_comm

theorem dmaAllocate_effect (hbr : 0 < s.brk) (c size : ℕ) (fd kmalloc : Bool) (handle : Option ℕ) :
    Same s (dmaBufferAllocate s c size fd kmalloc handle).1 ∧
        ¬ (kmalloc ∧ ∃ b ∈ s.dmaBuffer, b.ptr = 0) ∨
      Acquires s (dmaBufferAllocate s c size fd kmalloc handle).1 c [s.brk] [] ∧
        handle.isSome ∨
      Acquires s (dmaBufferAllocate s c size fd kmalloc handle).1 c [] [] ∧
        kmalloc ∧ (∃ b ∈ s.dmaBuffer, b.ptr = 0) ∧ handle = none := by
  have hl (t : State) (h : buffers t.dmaBuffer = buffers s.dmaBuffer)
      (hi : t.interrupts = s.interrupts) (hg : t.gpBuffer = s.gpBuffer) : t.live = s.live := by
    rw [State.live, State.live, h, hi, hg]
  simp only [dmaBufferAllocate]
  by_cases ht : kmalloc ∧ ∃ b ∈ s.dmaBuffer, b.ptr = 0
  · obtain ⟨rfl, b, hb, hf⟩ := ht
    rw [if_pos ⟨rfl, b, hb, hf⟩, if_pos rfl]
    right
    rcases allocate_spec (t := s.dmaBuffer) size fd s.brk handle with
      ⟨i, b', h, hb', hf', hp, rfl, hr⟩ | ⟨hno, err, -, hta⟩
    · refine .inl ⟨⟨rfl, rfl, rfl, (append_nil _).symm, ?_⟩, rfl⟩
      rw [hr]
      have hs := perm_buffers_set ⟨s.brk, h, size, fd⟩ hb' hf' hp
      exact ((hs.append_left _).trans perm_middle).append_right _
    have hn : handle = none := by
      rcases hno with hno | hno | hno
      · exact absurd hf (hno b hb)
      · exact absurd hno (ne_of_gt hbr)
      · exact hno
    refine .inr ⟨⟨rfl, rfl, rfl, (append_nil _).symm, ?_⟩, rfl, ⟨b, hb, hf⟩, hn⟩
    refine List.Perm.of_eq (hl _ ?_ rfl rfl)
    rcases hta with hta | ⟨i, b', hb', hf', hta⟩
    · exact congrArg buffers hta
    · exact (congrArg buffers hta).trans (buffers_set_zero hb' hf')
  · rw [if_neg ht]
    refine .inl ⟨⟨rfl, rfl, rfl, rfl, hl _ ?_ rfl rfl⟩, ht⟩
    rcases allocate_spec (t := s.dmaBuffer) size fd (if kmalloc then s.brk else 0)
      handle with ⟨i, b', h, hb', hf', hp, -, -⟩ | ⟨-, err, -, hta⟩
    · refine absurd ⟨?_, b', mem_of_getElem? hb', hf'⟩ ht
      by_contra hk
      exact hp (if_neg hk)
    · rcases hta with hta | ⟨i, b', hb', hf', hta⟩
      · exact congrArg buffers hta
      · exact (congrArg buffers hta).trans (buffers_set_zero hb' hf')

/-! ### The invariant -/

/-- The addresses acquired are different and below the next one; they are those that are held
and those given back. -/
structure Inv (s : State) : Prop where
  pos : 0 < s.brk
  fresh : ∀ r ∈ s.acquired, r.1 < s.brk
  nodup : (s.acquired.map Prod.fst).Nodup
  perm : (s.live ++ s.released).Perm (s.acquired.map Prod.fst)
  closed : s.clients = [] → s.live = []

theorem inv_new : Inv .new where
  pos := one_pos
  fresh := by simp [State.new]
  nodup := nodup_nil
  perm := by
    have hl : State.new.live = [] := by decide
    rw [hl]
    exact List.Perm.refl _
  closed _ := by decide

theorem Inv.same (h : Inv s) (he : Same s s') : Inv s' where
  pos := he.brk ▸ h.pos
  fresh := by rw [he.brk, he.acquired]; exact h.fresh
  nodup := by rw [he.acquired]; exact h.nodup
  perm := by rw [he.live, he.released, he.acquired]; exact h.perm
  closed hc := by rw [he.live]; exact h.closed (he.clients ▸ hc)

theorem Inv.acquires (h : Inv s) (hc : c ∈ s.clients) {held given : List ℕ}
    (he : Acquires s s' c held given) (hon : (held ++ given).Perm [s.brk]) : Inv s' where
  pos := by rw [he.brk]; exact Nat.succ_pos _
  fresh := by
    rw [he.brk, he.acquired]
    intro r hr
    rcases mem_append.mp hr with hr | hr
    · exact (h.fresh r hr).trans (Nat.lt_succ_self _)
    · rw [mem_singleton.mp hr]
      exact Nat.lt_succ_self _
  nodup := by
    rw [he.acquired, map_append, nodup_append]
    refine ⟨h.nodup, nodup_singleton _, ?_⟩
    intro a ha b hb
    obtain ⟨r, hr, rfl⟩ := mem_map.mp ha
    rw [mem_singleton.mp hb]
    exact ne_of_lt (h.fresh r hr)
  perm := by
    rw [he.released, he.acquired, map_append]
    rw [perm_iff_count]
    intro a
    have hl := he.live.count_eq a
    have ho := h.perm.count_eq a
    have hnew := hon.count_eq a
    simp only [count_append, map_cons, map_nil] at hl ho hnew ⊢
    omega
  closed hn := by
    rw [he.clients] at hn
    rw [hn] at hc
    exact absurd hc not_mem_nil

theorem Inv.close (h : Inv s) (l : List ℕ) : Inv { tlkmControlRelease s with clients := l } := by
  obtain ⟨he, hr⟩ := close_live s
  have hb : (tlkmControlRelease s).brk = s.brk := by
    simp only [tlkmControlRelease, pcieDeviceMiscdevClose, releaseLoop_eq]
  have ha : (tlkmControlRelease s).acquired = s.acquired := by
    simp only [tlkmControlRelease, pcieDeviceMiscdevClose, releaseLoop_eq]
  have hl : { tlkmControlRelease s with clients := l }.live = [] := he
  refine ⟨hb.symm ▸ h.pos, ?_, ha.symm ▸ h.nodup, ?_, fun _ => hl⟩
  · rw [hb, ha]
    exact h.fresh
  · rw [hl, nil_append, hr, ha]
    exact perm_append_comm.trans h.perm

theorem Inv.accounted (h : Inv s) : Accounted s where
  once r hr := by
    have hc := h.perm.count_eq r.1
    rw [count_eq_one_of_mem h.nodup (mem_map_of_mem hr), count_append] at hc
    by_cases hl : r.1 ∈ s.live
    · have hp := count_pos_iff.mpr hl
      rw [if_pos hl]
      omega
    · have hz := count_eq_zero.mpr hl
      rw [if_neg hl]
      omega
  closed := h.closed

theorem Inv.lt_of_mem_live (h : Inv s) {a : ℕ} (ha : a ∈ s.live ∨ a ∈ s.released) : a < s.brk := by
  have hm := h.perm.mem_iff.mp (mem_append.mpr ha)
  obtain ⟨r, hr, rfl⟩ := mem_map.mp hm
  exact h.fresh r hr

theorem Inv.not_accounted_of_lost (h : Inv s) (he : Acquires s s' c [] []) : ¬ Accounted s' := by
  intro ha
  have hn : (s.brk, c) ∈ s'.acquired := by rw [he.acquired]; simp
  have hl : s.brk ∉ s'.live := fun hm =>
    absurd (h.lt_of_mem_live (.inl (he.live.mem_iff.mp hm))) (lt_irrefl _)
  have hr : s.brk ∉ s'.released := by
    rw [he.released, append_nil]
    exact fun hm => absurd (h.lt_of_mem_live (.inr hm)) (lt_irrefl _)
  have hc := ha.once _ hn
  rw [if_neg hl, count_eq_zero.mpr hr] at hc
  exact absurd hc Nat.zero_ne_one

/-! ### Runs -/

theorem Inv.step (h : Inv s) {r : Request} (hr : Alone s r) : Inv (step s r) := by
  cases r with
  | openFile c =>
    simp only [DeviceFile.step]
    split
    · exact h
    · exact ⟨h.pos, h.fresh, h.nodup, h.perm, fun hn => absurd hn (cons_ne_nil _ _)⟩
  | regInt c peId fd result =>
    simp only [DeviceFile.step]
    split
    case isTrue hc =>
      rcases regInt_effect s c peId fd result with he | he | he
      · exact h.same he
      · exact h.acquires hc he (List.Perm.refl _)
      · exact h.acquires hc he (List.Perm.refl _)
    case isFalse => exact h
  | dmaAllocate c size fromDevice kmalloc handle =>
    simp only [DeviceFile.step]
    split
    case isTrue hc =>
      rcases dmaAllocate_effect h.pos c size fromDevice kmalloc handle with
        ⟨he, -⟩ | ⟨he, -⟩ | ⟨-, hk, hf, rfl⟩
      · exact h.same he
      · exact h.acquires hc he (List.Perm.refl _)
      · exact absurd (hr hc hk hf) Bool.false_ne_true
    case isFalse => exact h
  | gpAllocate c size kzalloc kmalloc =>
    simp only [DeviceFile.step]
    split
    case isTrue hc =>
      rcases gpAllocate_effect s c size kzalloc kmalloc with he | he
      · exact h.same he
      · exact h.acquires hc he (List.Perm.refl _)
    case isFalse => exact h
  | close c =>
    simp only [DeviceFile.step]
    split
    · exact h.close _
    · exact h

theorem isolated_close_iff (s : State) (c : ℕ) : Isolated s (.close c) ↔ Alone s (.close c) := by
  refine forall_congr' fun hc => forall₂_congr fun r _ => ?_
  have he : (step s (.close c)).live = [] := by
    rw [step, if_pos hc]
    exact (close_live s).1
  rw [he]
  constructor
  · intro h hl
    by_contra hne
    exact absurd (h hne hl) not_mem_nil
  · intro h hne hl
    exact absurd (h hl) hne

theorem Inv.step_iff (h : Inv s) (r : Request) :
    Accounted (DeviceFile.step s r) ∧ Isolated s r ↔ Alone s r := by
  constructor
  · rintro ⟨ha, hi⟩
    cases r with
    | close c => exact (isolated_close_iff s c).mp hi
    | dmaAllocate c size fromDevice kmalloc handle =>
      intro hc hk hf
      rw [DeviceFile.step, if_pos hc] at ha
      rcases dmaAllocate_effect h.pos c size fromDevice kmalloc handle with
        ⟨-, hn⟩ | ⟨-, hs⟩ | ⟨he, -⟩
      · exact absurd ⟨hk, hf⟩ hn
      · exact hs
      · exact absurd ha (h.not_accounted_of_lost he)
    | openFile c => trivial
    | regInt c peId fd result => trivial
    | gpAllocate c size kzalloc kmalloc => trivial
  · intro hr
    refine ⟨(h.step hr).accounted, ?_⟩
    cases r with
    | close c => exact (isolated_close_iff s c).mpr hr
    | openFile c => trivial
    | regInt c peId fd result => trivial
    | dmaAllocate c size fromDevice kmalloc handle => trivial
    | gpAllocate c size kzalloc kmalloc => trivial

end

/-- **Isolation of clients**: in a run no close takes what another client acquired, and everything
acquired is held or was given back exactly once, with nothing held when nobody has the file open,
exactly when everything held at a close was acquired for the client that closes, and no mapping of a
new DMA buffer fails. -/
theorem isolated_iff (rs : List Request) :
    (∀ s ∈ Runs.trace step .new rs, Accounted s) ∧ Runs.AllSteps step Isolated .new rs ↔
      Runs.AllSteps step Alone .new rs :=
  Runs.trace_and_steps_iff (fun _ h => h.accounted) (fun _ _ h hr => h.step hr)
    (fun _ r h => h.step_iff r) inv_new rs

/-- The first client registers an interrupt and allocates both kinds of buffer; the second one opens
the file and closes it. The first one still has it open, and nothing is left. -/
theorem closed_by_another_client :
    let s := Runs.run step .new [.openFile 1, .openFile 2, .regInt 1 5 7 0,
      .dmaAllocate 1 4096 true true (some 4096), .gpAllocate 1 64 true true]
    s.live = [1, 2, 3] ∧ s.acquired = [(1, 1), (2, 1), (3, 1)] ∧ ¬ Isolated s (.close 2) ∧
      (step s (.close 2)).clients = [1] ∧ (step s (.close 2)).live = [] := by
  refine ⟨by decide, by decide, ?_, by decide, by decide⟩
  rw [isolated_close_iff]
  intro h
  exact absurd (h (by decide) (1, 1) (by decide) (by decide)) (by decide)

end Tapasco.DeviceFile
