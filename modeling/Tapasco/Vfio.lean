import Tapasco.Allocator
import Tapasco.Lib.Exec

/-!
# The IOMMU Mapping Allocator

This module embeds `VfioAllocator` of `allocator.rs` with the parts of `vfio.rs` it
uses. An allocation maps the smallest page-aligned interval that contains the caller's
buffer behind the last mapping, so that the device reads and writes the buffer itself;
a free removes the mapping again.

The kernel behind the two ioctls is a table of mappings. Each ioctl does what it is
asked or fails, as the `IoctlReply` of the call says. A failing ioctl makes the `unwrap`
in `vfio_dma_map` or `vfio_dma_unmap` panic while the mutex of the mappings is held, so
the mutex is poisoned and all later calls panic too.

The code does not store which allocations are live; `History` does.
-/

open Lists Word64 List

namespace Tapasco.Vfio

def iommuPagesize : ℕ := 4096

/-- `HP_OFFS`: the offset the hardware adds to the addresses a PE uses. -/
def hpOffs : ℕ := 0x000800000000

/-- `x - (x % IOMMU_PAGESIZE)`. -/
def toPageBoundary (x : ℕ) : ℕ :=
  x - x % iommuPagesize

/-- A mapping as the runtime records it. -/
structure VfioMapping where
  iova : ℕ
  size : ℕ

/-- A mapping in the kernel: device addresses from `iova` on reach host addresses from
`vaddr` on. -/
structure IommuEntry where
  iova : ℕ
  size : ℕ
  vaddr : ℕ

/-- What an ioctl answers: it was carried out, it returned a negative number, or it
failed with an errno. -/
inductive IoctlReply where
  | done
  | negative
  | errno

/-- The VFIO context: the recorded mappings behind their mutex, and the kernel's table
behind the container file. -/
structure VfioDev where
  mappings : List VfioMapping
  poisoned : Bool
  iommu : List IommuEntry

/-- The errors of `vfio.rs` that the two ioctl wrappers return. -/
inductive VfioError where
  | ioctlError (name : String)

def VfioError.toString : VfioError → String
  | .ioctlError name => "IOCTL " ++ name ++ " failed"

namespace VfioDev

/-- `vfio_dma_map`: map `size` bytes of device addresses from `iova` on to `vaddr`. -/
def vfioDmaMap (dev : VfioDev) (reply : IoctlReply) (size iova vaddr : ℕ) :
    Outcome VfioError Unit × VfioDev :=
  match reply with
  | .done => (.ok (), { dev with iommu := dev.iommu ++ [⟨iova, size, vaddr⟩] })
  | .negative => (.err (.ioctlError "vfio_iommu_map_dma"), dev)
  | .errno => (.panic, dev)

/-- The entry lies in the `size` bytes of device addresses from `iova` on. -/
def inRange (iova size : ℕ) (e : IommuEntry) : Bool :=
  decide (wrappingSub e.iova iova + e.size ≤ size)

/-- `vfio_dma_unmap`: unmap `size` bytes of device addresses from `iova` on. -/
def vfioDmaUnmap (dev : VfioDev) (reply : IoctlReply) (iova size : ℕ) :
    Outcome VfioError Unit × VfioDev :=
  match reply with
  | .done => (.ok (), { dev with iommu := dev.iommu.filter fun e => !inRange iova size e })
  | .negative => (.err (.ioctlError "vfio_iommu_unmap_dma"), dev)
  | .errno => (.panic, dev)

/-- A new mapping starts right of the last one. -/
def iovaStart (dev : VfioDev) : ℕ :=
  match dev.mappings.getLast? with
  | some e => wrappingAdd e.iova e.size
  | none => 0

/-- Map the pages of the buffer at `va` behind the last mapping. -/
def allocate (dev : VfioDev) (reply : IoctlReply) (size : ℕ) (va : Option ℕ) :
    Outcome AllocatorError ℕ × VfioDev :=
  if dev.poisoned then (.panic, dev)
  else
    match va with
    | none => (.err .vfioNoVa, dev)
    | some a =>
      let offset := a % iommuPagesize
      let vaAligned := toPageBoundary a
      let iovaEnd := toPageBoundary (wrappingSub
        (wrappingAdd (wrappingAdd (wrappingAdd dev.iovaStart offset) size) iommuPagesize) 1)
      let mapLen := wrappingSub iovaEnd dev.iovaStart
      match dev.vfioDmaMap reply mapLen (wrappingAdd hpOffs dev.iovaStart) vaAligned with
      | (.ok (), dev') =>
        (.ok (wrappingAdd dev.iovaStart offset),
          { dev' with mappings := dev'.mappings ++ [⟨dev.iovaStart, mapLen⟩] })
      | (.err e, dev') => (.err (.vfioError e.toString), dev')
      | (.panic, dev') => (.panic, { dev' with poisoned := true })

/-- Remove the mapping whose first page contains `ptr`. -/
def free (dev : VfioDev) (reply : IoctlReply) (ptr : ℕ) : Outcome AllocatorError Unit × VfioDev :=
  if dev.poisoned then (.panic, dev)
  else
    let iova := toPageBoundary ptr
    match findSplit (fun x => decide (x.iova = iova)) dev.mappings with
    | some (pre, m, post) =>
      match dev.vfioDmaUnmap reply (wrappingAdd hpOffs m.iova) m.size with
      | (.ok (), dev') => (.ok (), { dev' with mappings := pre ++ post })
      | (.err e, dev') => (.err (.vfioError e.toString), dev')
      | (.panic, dev') => (.panic, { dev' with poisoned := true })
    | none => (.err (.unknownMemory iova), dev)

/-- The host address behind an address the device uses, if it is mapped. -/
def translate (dev : VfioDev) (d : ℕ) : Option ℕ :=
  (dev.iommu.find? fun e => decide (wrappingSub (wrappingAdd hpOffs d) e.iova < e.size)).map
    fun e => e.vaddr + wrappingSub (wrappingAdd hpOffs d) e.iova

end VfioDev

/-! ### Histories -/

/-- A live allocation: the address that was returned for a buffer. -/
structure Live where
  addr : ℕ
  va : ℕ
  size : ℕ
  deriving DecidableEq

/-- A device together with its live allocations. -/
structure History where
  dev : VfioDev
  live : List Live

/-- A call with the answer its ioctl gets, if it makes one. -/
inductive Call where
  | allocate (size : ℕ) (va : Option ℕ) (reply : IoctlReply)
  | free (ptr : ℕ) (reply : IoctlReply)

/-- A fresh device, as `init_vfio` builds it. -/
def History.init : History :=
  ⟨⟨[], false, []⟩, []⟩

/-- One call: an allocation becomes live when it succeeds, and stops being live when the
mapping that starts at its page is freed. -/
def History.step (h : History) : Call → History
  | .allocate size va reply =>
    match h.dev.allocate reply size va with
    | (.ok r, dev) => ⟨dev, h.live ++ [⟨r, va.getD 0, size⟩]⟩
    | (_, dev) => ⟨dev, h.live⟩
  | .free ptr reply =>
    match h.dev.free reply ptr with
    | (.ok (), dev) =>
      ⟨dev, h.live.filter fun l => decide (toPageBoundary l.addr ≠ toPageBoundary ptr)⟩
    | (_, dev) => ⟨dev, h.live⟩

/-- The request is for at least one byte, and the end of its pages behind the last mapping is a
64-bit address. -/
def Fits (h : History) : Call → Prop
  | .allocate size va _ =>
    1 ≤ size ∧ ∀ a, va = some a →
      h.dev.iovaStart + a % iommuPagesize + size + iommuPagesize - 1 < 2 ^ 64
  | .free _ _ => True

/-! ### The pages of an allocation -/

namespace Live

/-- The device address at which the mapping of the allocation starts. -/
def iova (l : Live) : ℕ :=
  toPageBoundary l.addr

/-- The number of bytes of the pages the buffer touches. -/
def span (l : Live) : ℕ :=
  toPageBoundary (l.va % iommuPagesize + l.size + iommuPagesize - 1)

/-- The mapping the runtime records for the allocation. -/
def mapping (l : Live) : VfioMapping :=
  ⟨l.iova, l.span⟩

/-- The mapping the kernel holds for the allocation. -/
def entry (l : Live) : IommuEntry :=
  ⟨wrappingAdd hpOffs l.iova, l.span, toPageBoundary l.va⟩

/-- An allocation as `allocate` makes it: the returned address has the buffer's position
in its page, the buffer is not empty and its pages end in the address space. -/
structure WellFormed (l : Live) : Prop where
  offset : l.addr % iommuPagesize = l.va % iommuPagesize
  size_pos : 0 < l.size
  fits : l.iova + l.span < 2 ^ 64

theorem span_pos {l : Live} (h : l.WellFormed) : 0 < l.span := by
  have := h.size_pos
  simp only [span, toPageBoundary, iommuPagesize]
  omega

theorem span_bounds (l : Live) :
    l.span % iommuPagesize = 0 ∧ l.va % iommuPagesize + l.size ≤ l.span ∧
      l.span < l.va % iommuPagesize + l.size + iommuPagesize := by
  simp only [span, toPageBoundary, iommuPagesize]
  omega

theorem addr_eq {l : Live} (h : l.WellFormed) : l.addr = l.iova + l.va % iommuPagesize := by
  have := h.offset
  simp only [iova, toPageBoundary, iommuPagesize] at this ⊢
  omega

theorem iova_mod (l : Live) : l.iova % iommuPagesize = 0 := by
  simp only [iova, toPageBoundary, iommuPagesize]
  omega

/-- The interval is page aligned, contains the buffer, and every other page-aligned interval around
the buffer contains it. -/
def SmallestPages (l : Live) (vaddr size : ℕ) : Prop :=
  vaddr % iommuPagesize = 0 ∧ size % iommuPagesize = 0 ∧
    vaddr ≤ l.va ∧ l.va + l.size ≤ vaddr + size ∧
    ∀ lo hi, lo % iommuPagesize = 0 → hi % iommuPagesize = 0 → lo ≤ l.va →
      l.va + l.size ≤ hi → lo ≤ vaddr ∧ vaddr + size ≤ hi

theorem smallestPages_entry (l : Live) (h : l.WellFormed) :
    l.SmallestPages l.entry.vaddr l.entry.size := by
  have hp := h.size_pos
  obtain ⟨hm, hl, hh⟩ := l.span_bounds
  simp only [SmallestPages, entry, toPageBoundary, iommuPagesize] at *
  refine ⟨by omega, hm, by omega, by omega, fun lo hi hlo hhi hle hge => ?_⟩
  omega

end Live

/-! ### The invariant -/

/-- The recorded mappings and the kernel's table are the images of the live allocations, which are
stacked. -/
structure Inv (h : History) : Prop where
  mappings : h.dev.mappings = h.live.map Live.mapping
  iommu : h.dev.iommu = h.live.map Live.entry
  sorted : h.live.Pairwise fun l m => l.iova + l.span ≤ m.iova
  wellFormed : ∀ l ∈ h.live, l.WellFormed

theorem inv_init : Inv History.init :=
  ⟨rfl, rfl, List.Pairwise.nil, by simp [History.init]⟩

section

variable {h : History} (hI : Inv h)

include hI

theorem iovaStart_spec :
    h.dev.iovaStart % iommuPagesize = 0 ∧ ∀ l ∈ h.live, l.iova + l.span ≤ h.dev.iovaStart := by
  rcases eq_nil_or_concat' h.live with hn | ⟨init, last, hla⟩
  · have hm : h.dev.mappings = [] := by rw [hI.mappings, hn]; rfl
    have hs : h.dev.iovaStart = 0 := by rw [VfioDev.iovaStart, hm]; rfl
    rw [hs, hn]
    exact ⟨rfl, by simp⟩
  have hme : last ∈ h.live := by simp [hla]
  have hf := (hI.wellFormed last hme).fits
  have hs : h.dev.iovaStart = last.iova + last.span := by
    rw [VfioDev.iovaStart, hI.mappings, hla, map_append, map_singleton, getLast?_concat]
    exact wrappingAdd_of_lt hf
  obtain ⟨hmo, -, -⟩ := last.span_bounds
  have hi := last.iova_mod
  rw [hs]
  refine ⟨by simp only [iommuPagesize] at *; omega, fun l hl => ?_⟩
  have hso := hI.sorted
  rw [hla, pairwise_append] at hso
  rw [hla, mem_append, mem_singleton] at hl
  rcases hl with hl | rfl
  · have hle := hso.2.2 l hl last (by simp)
    omega
  · exact le_rfl

theorem allocate_done {size a : ℕ} (hp : h.dev.poisoned = false)
    (hfi : Fits h (.allocate size (some a) .done)) :
    let l : Live := ⟨h.dev.iovaStart + a % iommuPagesize, a, size⟩
    h.dev.allocate .done size (some a) =
        (.ok l.addr, { h.dev with
          iommu := h.dev.iommu ++ [l.entry]
          mappings := h.dev.mappings ++ [l.mapping] }) ∧
      l.WellFormed ∧ l.iova = h.dev.iovaStart := by
  intro l
  obtain ⟨hm, -⟩ := iovaStart_spec hI
  obtain ⟨hs, hf⟩ := hfi
  have hf := hf a rfl
  have hi : l.iova = h.dev.iovaStart := by
    simp only [l, Live.iova, toPageBoundary, iommuPagesize] at hm ⊢
    omega
  simp only [iommuPagesize] at hm hf
  have ha : wrappingAdd h.dev.iovaStart (a % iommuPagesize) = l.addr :=
    wrappingAdd_of_lt (by simp only [iommuPagesize]; omega)
  -- the end of the last page, computed without wrap-around
  have he : wrappingSub (wrappingAdd (wrappingAdd l.addr size) iommuPagesize) 1 =
      h.dev.iovaStart + (a % iommuPagesize + size + iommuPagesize - 1) := by
    simp only [l, wrappingAdd, wrappingSub, iommuPagesize]
    omega
  have hl : wrappingSub (toPageBoundary (h.dev.iovaStart + (a % iommuPagesize + size +
      iommuPagesize - 1))) h.dev.iovaStart = l.span := by
    simp only [l, Live.span, wrappingSub, toPageBoundary, iommuPagesize]
    omega
  refine ⟨?_, ⟨?_, hs, ?_⟩, hi⟩
  · simp only [VfioDev.allocate, hp, Bool.false_eq_true, if_false, VfioDev.vfioDmaMap,
      ha, he, hl, Live.entry, Live.mapping, hi]
    rfl
  · simp only [l, iommuPagesize]
    omega
  · rw [hi]
    simp only [l, Live.span, toPageBoundary, iommuPagesize]
    omega

section

variable {pre post : List Live} {l : Live} (hlive : h.live = pre ++ l :: post)

include hlive

theorem apart {m : Live} (hm : m ∈ pre ++ post) :
    m.iova + m.span ≤ l.iova ∨ l.iova + l.span ≤ m.iova := by
  have hs := hI.sorted
  rw [hlive, pairwise_append, pairwise_cons] at hs
  obtain ⟨-, ⟨hp, -⟩, hc⟩ := hs
  rw [mem_append] at hm
  rcases hm with hm | hm
  · exact .inl (hc m hm l mem_cons_self)
  · exact .inr (hp m hm)

theorem wellFormed_self : l.WellFormed :=
  hI.wellFormed l (by simp [hlive])

theorem wellFormed_other {m : Live} (hm : m ∈ pre ++ post) : m.WellFormed := by
  refine hI.wellFormed m ?_
  rw [hlive, mem_append, mem_cons]
  rw [mem_append] at hm
  exact hm.imp_right .inr

theorem iova_ne {m : Live} (hm : m ∈ pre ++ post) : m.iova ≠ l.iova := by
  have ha := apart hI hlive hm
  have hmp := Live.span_pos (wellFormed_other hI hlive hm)
  have hl := Live.span_pos (wellFormed_self hI hlive)
  omega

omit hI hlive in
theorem inRange_self : VfioDev.inRange (wrappingAdd hpOffs l.iova) l.span l.entry = true := by
  rw [VfioDev.inRange, decide_eq_true_eq, Live.entry]
  simp only [wrappingSub, wrappingAdd]
  omega

theorem inRange_other {m : Live} (hm : m ∈ pre ++ post) :
    VfioDev.inRange (wrappingAdd hpOffs l.iova) l.span m.entry = false := by
  have hl := (wellFormed_self hI hlive).fits
  have hmf := (wellFormed_other hI hlive hm).fits
  have hmp := Live.span_pos (wellFormed_other hI hlive hm)
  have ha := apart hI hlive hm
  rw [VfioDev.inRange, decide_eq_false_iff_not, Live.entry,
    wrappingSub_wrappingAdd hpOffs (by omega)]
  simp only [wrappingSub]
  omega

theorem findSplit_mapping :
    findSplit (fun x => decide (x.iova = l.iova)) h.dev.mappings =
      some (pre.map Live.mapping, l.mapping, post.map Live.mapping) := by
  rw [hI.mappings, hlive, map_append, map_cons]
  refine findSplit_append_cons ?_ (decide_eq_true rfl)
  intro x hx
  obtain ⟨m, hm, rfl⟩ := mem_map.mp hx
  exact decide_eq_false (iova_ne hI hlive (mem_append_left post hm))

theorem filter_iommu :
    (h.dev.iommu.filter fun e => !VfioDev.inRange (wrappingAdd hpOffs l.iova) l.span e) =
      pre.map Live.entry ++ post.map Live.entry := by
  have ho : ∀ e ∈ pre.map Live.entry ++ post.map Live.entry,
      (!VfioDev.inRange (wrappingAdd hpOffs l.iova) l.span e) = true := by
    intro e he
    rw [← map_append] at he
    obtain ⟨m, hm, rfl⟩ := mem_map.mp he
    rw [inRange_other hI hlive hm]
    rfl
  rw [hI.iommu, hlive, map_append, map_cons]
  refine filter_append_cons (fun e he => ho e (mem_append_left _ he)) ?_
    fun e he => ho e (mem_append_right _ he)
  rw [inRange_self]
  rfl

theorem free_live (hpo : h.dev.poisoned = false) (ptr : ℕ)
    (hp : toPageBoundary ptr = l.iova) (r : IoctlReply) :
    h.dev.free r ptr =
      match r with
      | .done => (.ok (), { h.dev with
          mappings := (pre ++ post).map Live.mapping
          iommu := (pre ++ post).map Live.entry })
      | .negative => (.err (.vfioError "IOCTL vfio_iommu_unmap_dma failed"), h.dev)
      | .errno => (.panic, { h.dev with poisoned := true }) := by
  rw [VfioDev.free, hpo, if_neg Bool.false_ne_true, hp]
  simp only [findSplit_mapping hI hlive]
  cases r with
  | done =>
    simp only [VfioDev.vfioDmaUnmap, Live.mapping, filter_iommu hI hlive, map_append]
  | negative => rfl
  | errno => rfl

omit hI in
theorem filter_live (hI : Inv h) {ptr : ℕ} (hp : toPageBoundary ptr = l.iova) :
    (h.live.filter fun m => decide (toPageBoundary m.addr ≠ toPageBoundary ptr)) = pre ++ post := by
  rw [hlive, hp]
  refine filter_append_cons
    (fun m hm => decide_eq_true (iova_ne hI hlive (mem_append_left post hm))) ?_
    fun m hm => decide_eq_true (iova_ne hI hlive (mem_append_right pre hm))
  exact decide_eq_false (not_not_intro rfl)

theorem inv_remove : Inv ⟨{ h.dev with
    mappings := (pre ++ post).map Live.mapping
    iommu := (pre ++ post).map Live.entry }, pre ++ post⟩ := by
  refine ⟨rfl, rfl, ?_, fun m hm => wellFormed_other hI hlive hm⟩
  have hs := hI.sorted
  rw [hlive, pairwise_append, pairwise_cons] at hs
  obtain ⟨hp, ⟨-, hpo⟩, hc⟩ := hs
  exact pairwise_append.mpr
    ⟨hp, hpo, fun a ha b hb => hc a ha b (mem_cons_of_mem l hb)⟩

theorem translate_live {k : ℕ} (hk : k < l.size) :
    h.dev.translate (l.addr + k) = some (l.va + k) ∧
      wrappingSub (wrappingAdd hpOffs (l.addr + k)) l.entry.iova < l.entry.size := by
  have hw := wellFormed_self hI hlive
  have ha := Live.addr_eq hw
  have hf := hw.fits
  obtain ⟨-, hsp, -⟩ := l.span_bounds
  have hd : wrappingSub (wrappingAdd hpOffs (l.addr + k)) l.entry.iova =
      l.va % iommuPagesize + k := by
    rw [Live.entry, wrappingSub_wrappingAdd hpOffs (by omega),
      wrappingSub_of_le (by omega) (by omega) (by omega)]
    omega
  have hs : wrappingSub (wrappingAdd hpOffs (l.addr + k)) l.entry.iova < l.entry.size := by
    rw [hd]
    exact lt_of_lt_of_le (by omega) hsp
  have hfo : h.dev.iommu.find? (fun e =>
      decide (wrappingSub (wrappingAdd hpOffs (l.addr + k)) e.iova < e.size)) = some l.entry := by
    rw [hI.iommu, hlive, map_append, map_cons, find?_eq_some_iff_append]
    refine ⟨decide_eq_true hs, _, _, rfl, ?_⟩
    intro e he
    obtain ⟨m, hm, rfl⟩ := mem_map.mp he
    have hm' := mem_append_left post hm
    have hap := apart hI hlive hm'
    have hmf := (wellFormed_other hI hlive hm').fits
    have hmi : ¬ wrappingSub (wrappingAdd hpOffs (l.addr + k)) m.entry.iova <
        m.entry.size := by
      rw [Live.entry, wrappingSub_wrappingAdd hpOffs (by omega)]
      simp only [wrappingSub]
      omega
    rw [decide_eq_false hmi]
    rfl
  refine ⟨?_, hs⟩
  rw [VfioDev.translate, hfo, Option.map_some, hd, Live.entry, Option.some.injEq]
  simp only [toPageBoundary, iommuPagesize]
  omega

end

omit hI in
theorem step_poisoned (hp : h.dev.poisoned = true) (c : Call) : h.step c = h := by
  cases c <;> simp only [History.step, VfioDev.allocate, VfioDev.free, hp, if_true]

theorem inv_allocate {size : ℕ} {va : Option ℕ} {r : IoctlReply}
    (hp : h.dev.poisoned = false) (hf : Fits h (.allocate size va r)) :
    Inv (h.step (.allocate size va r)) := by
  cases va with
  | none =>
    simp only [History.step, VfioDev.allocate, hp, Bool.false_eq_true, if_false]
    exact hI
  | some a =>
    cases r with
    | done =>
      obtain ⟨hok, hw, hi⟩ := allocate_done hI hp hf
      obtain ⟨-, hr⟩ := iovaStart_spec hI
      simp only [History.step, hok, Option.getD_some]
      refine ⟨?_, ?_, ?_, ?_⟩
      · rw [map_append, ← hI.mappings, map_singleton]
      · rw [map_append, ← hI.iommu, map_singleton]
      · refine pairwise_append.mpr ⟨hI.sorted, pairwise_singleton _ _, ?_⟩
        intro m hm l hl
        rw [mem_singleton.mp hl, hi]
        exact hr m hm
      · intro m hm
        rcases mem_append.mp hm with hm | hm
        · exact hI.wellFormed m hm
        · rw [mem_singleton.mp hm]
          exact hw
    | negative =>
      simp only [History.step, VfioDev.allocate, hp, Bool.false_eq_true, if_false]
      exact hI
    | errno =>
      simp only [History.step, VfioDev.allocate, hp, Bool.false_eq_true, if_false]
      exact ⟨hI.mappings, hI.iommu, hI.sorted, hI.wellFormed⟩

theorem inv_free {ptr : ℕ} {rep : IoctlReply} (hpo : h.dev.poisoned = false) :
    Inv (h.step (.free ptr rep)) := by
  cases hf : findSplit (fun x => decide (x.iova = toPageBoundary ptr)) h.dev.mappings with
  | none =>
    simp only [History.step, VfioDev.free, hpo, Bool.false_eq_true, if_false, hf]
    exact hI
  | some r =>
    obtain ⟨pre', x, post'⟩ := r
    obtain ⟨hs, hx, -⟩ := findSplit_eq_some hf
    have hm : x ∈ h.live.map Live.mapping := by rw [← hI.mappings, hs]; simp
    obtain ⟨l, hl, rfl⟩ := mem_map.mp hm
    obtain ⟨pre, post, hlive⟩ := append_of_mem hl
    have hp : toPageBoundary ptr = l.iova := (of_decide_eq_true hx).symm
    rw [History.step, free_live hI hlive hpo ptr hp]
    cases rep with
    | done =>
      simp only [filter_live hlive hI hp]
      exact inv_remove hI hlive
    | negative => exact hI
    | errno => exact ⟨hI.mappings, hI.iommu, hI.sorted, hI.wellFormed⟩

theorem inv_step (c : Call) (hf : Fits h c) : Inv (h.step c) := by
  cases hp : h.dev.poisoned with
  | true =>
    rw [step_poisoned hp]
    exact hI
  | false =>
    cases c with
    | allocate size va reply => exact inv_allocate hI hp hf
    | free ptr reply => exact inv_free hI hp

end

/-! ### The mappings are exact -/

/-- What a client of the allocator relies on: the recorded mappings are page aligned and apart, and
the kernel holds exactly these; the device reaches every byte of a live buffer at the returned
address, through the smallest page-aligned interval around it; and freeing the address removes that
mapping and nothing else, or nothing at all if the kernel refuses. -/
structure MappingsExact (h : History) : Prop where
  aligned : ∀ m ∈ h.dev.mappings, m.iova % iommuPagesize = 0 ∧ m.size % iommuPagesize = 0
  disjoint : h.dev.mappings.Pairwise fun m n =>
    m.iova + m.size ≤ n.iova ∨ n.iova + n.size ≤ m.iova
  kernel : (h.dev.iommu.map fun e => (e.iova, e.size)) =
    h.dev.mappings.map fun m => (wrappingAdd hpOffs m.iova, m.size)
  exact : ∀ l ∈ h.live, ∃ e ∈ h.dev.iommu, l.SmallestPages e.vaddr e.size ∧
    ∀ k < l.size, h.dev.translate (l.addr + k) = some (l.va + k) ∧
      wrappingSub (wrappingAdd hpOffs (l.addr + k)) e.iova < e.size
  freed : ∀ l ∈ h.live, h.dev.poisoned = false →
    ∃ mpre m mpost ipre e ipost,
      h.dev.mappings = mpre ++ m :: mpost ∧ h.dev.iommu = ipre ++ e :: ipost ∧
      m.iova = toPageBoundary l.addr ∧ e.iova = wrappingAdd hpOffs m.iova ∧
      e.size = m.size ∧
      h.dev.free .done l.addr =
        (.ok (), { h.dev with mappings := mpre ++ mpost, iommu := ipre ++ ipost }) ∧
      ∀ reply, reply ≠ .done → (h.dev.free reply l.addr).2.mappings = h.dev.mappings ∧
        (h.dev.free reply l.addr).2.iommu = h.dev.iommu

theorem mappingsExact_of_inv {h : History} (hI : Inv h) : MappingsExact h where
  aligned := by
    intro m hm
    rw [hI.mappings] at hm
    obtain ⟨l, -, rfl⟩ := mem_map.mp hm
    exact ⟨l.iova_mod, l.span_bounds.1⟩
  disjoint := by
    rw [hI.mappings, pairwise_map]
    exact hI.sorted.imp fun hle => .inl hle
  kernel := by
    rw [hI.iommu, hI.mappings, map_map, map_map]
    rfl
  exact := by
    intro l hl
    obtain ⟨pre, post, hlive⟩ := append_of_mem hl
    refine ⟨l.entry, ?_, l.smallestPages_entry (hI.wellFormed l hl),
      fun k hk => translate_live hI hlive hk⟩
    rw [hI.iommu]
    exact mem_map_of_mem hl
  freed := by
    intro l hl hp
    obtain ⟨pre, post, hlive⟩ := append_of_mem hl
    have hf := free_live hI hlive hp l.addr rfl
    refine ⟨pre.map Live.mapping, l.mapping, post.map Live.mapping, pre.map Live.entry,
      l.entry, post.map Live.entry, ?_, ?_, rfl, rfl, rfl, ?_, ?_⟩
    · rw [hI.mappings, hlive, map_append, map_cons]
    · rw [hI.iommu, hlive, map_append, map_cons]
    · rw [hf, map_append, map_append]
    · intro reply hr
      rw [hf]
      cases reply with
      | done => exact absurd rfl hr
      | negative => exact ⟨rfl, rfl⟩
      | errno => exact ⟨rfl, rfl⟩

/-- **The IOMMU mappings are exact** in every state of every history of allocations and
frees whose requests do not overflow, whatever the kernel answers. -/
theorem mappingsExact_of_mem_trace {calls : List Call}
    (hfits : Runs.AllSteps History.step Fits History.init calls) :
    ∀ h ∈ Runs.trace History.step History.init calls, MappingsExact h := fun h hh =>
  mappingsExact_of_inv
    (Runs.forall_mem_trace_of (P := Inv) (fun _ c hI => inv_step hI c) inv_init hfits h hh)

/-- An unaligned buffer over two pages, one that the kernel refuses, a second one, and the
first one freed again. -/
theorem mappingsExact_of_mem_trace_unaligned :
    MappingsExact (Runs.run History.step History.init
      [.allocate 5000 (some 4095) .done, .allocate 7 (some 12288) .negative,
        .allocate 1 (some 8192) .done, .free 4095 .done]) := by
  refine mappingsExact_of_mem_trace ?_ _ (Runs.run_mem_trace _ _)
  exact ⟨⟨by decide, by rintro a ⟨⟩; decide⟩, ⟨by decide, by rintro a ⟨⟩; decide⟩,
    ⟨by decide, by rintro a ⟨⟩; decide⟩, trivial, trivial⟩

/-- `allocate` returns an address for `2 ^ 64 - 1` bytes but maps one page, and the second byte of
the buffer is not mapped. -/
theorem allocation_not_mapped_after_wrap :
    let h := History.init.step (.allocate (2 ^ 64 - 1) (some 8191) .done)
    (History.init.dev.allocate .done (2 ^ 64 - 1) (some 8191)).1 = .ok 4095 ∧
      h.live = [⟨4095, 8191, 2 ^ 64 - 1⟩] ∧ h.dev.translate (4095 + 1) = none ∧
      ¬ MappingsExact h := by
  intro h
  have hlive : h.live = [⟨4095, 8191, 2 ^ 64 - 1⟩] := by decide
  have hnone : h.dev.translate (4095 + 1) = none := by decide
  refine ⟨by decide, hlive, hnone, fun hexact => ?_⟩
  obtain ⟨e, -, -, hmapped⟩ := hexact.exact ⟨4095, 8191, 2 ^ 64 - 1⟩ (by rw [hlive]; simp)
  have hsome := (hmapped 1 (by decide)).1
  exact absurd (hnone.symm.trans hsome) (by decide)

end Tapasco.Vfio
