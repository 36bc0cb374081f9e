import Tapasco.Pe
import Tapasco.Lib.Exec
import Tapasco.Lib.Word

/-!
# Transfers by the CPU

This module embeds `DirectDMA` of `dma.rs`: memory of the device that is mapped to the host is
read and written by the CPU. A transfer to the device goes through a raw pointer into the
mapping, a transfer from the device through checked slices of it. On a ZynqMP the whole words
are copied as a slice, and the remaining bytes one by one.

Sums of addresses are modulo `2 ^ 64`, in the check of the bounds as well as in the access.
The memory of the process is named by its addresses, so that a pointer that leaves the mapping
has a meaning.
-/

open Word64 List

namespace Tapasco

open Exec ByteMem

/-- An `MmapMut`: the address of the mapping in the process, and its length. The end of the
mapping is an address as well. -/
structure MmapMut where
  base : ℕ
  len : ℕ
  fits : base + len < 2 ^ 64

/-- A `DirectDMA`: the window of the mapping, and the name of the device. -/
structure DirectDMA where
  offset : ℕ
  size : ℕ
  memory : MmapMut
  devName : String
  offset_lt : offset < 2 ^ 64
  size_lt : size < 2 ^ 64

/-- The error of a transfer out of the memory: `Error::OutOfRange`. -/
structure OutOfRange where
  ptr : ℕ
  stop : ℕ
  size : ℕ
  deriving DecidableEq

namespace DirectDMA

/-- A call that works on the memory of the process. -/
abbrev HostM := Exec ByteMem OutOfRange

def slice (d : DirectDMA) (start stop : ℕ) : HostM (List Byte) := fun m =>
  if start ≤ stop ∧ stop ≤ d.memory.len then
    (.ok (m.readBytes (d.memory.base + start) (stop - start)), m)
  else (.panic, m)

def index (d : DirectDMA) (i : ℕ) : HostM Byte := fun m =>
  if i < d.memory.len then (.ok (m (d.memory.base + i)), m) else (.panic, m)

/-- `clone_from_slice` to a slice of length `n`. -/
def cloneFromSlice (n : ℕ) (src : List Byte) : HostM (List Byte) :=
  if src.length = n then pure src else abort

/-- Store `data[first + i]` to `p + i` for each `i` below `n`. -/
def storeEach (data : List Byte) (first p n : ℕ) (m : ByteMem) : ByteMem :=
  (List.range n).foldl (fun m i => m.writeBytes (p + i) [data.getD (first + i) 0]) m

/-- **`copy_to`**. -/
def copyTo (d : DirectDMA) (data : List Byte) (ptr : ℕ) : HostM PUnit :=
  let stop := wrappingAdd ptr data.length
  if d.size < stop then fail ⟨ptr, stop, d.size⟩
  else
    let p := wrappingAdd d.memory.base (wrappingAdd d.offset ptr)
    if d.devName = "zynqmp" then
      let remainingBytes := data.length % 8
      let alignedBytes := data.length - remainingBytes
      do
        modify fun m => m.writeBytes p (data.take alignedBytes)
        if remainingBytes ≠ 0 then
          modify (storeEach data alignedBytes (p + alignedBytes) remainingBytes)
        else pure ⟨⟩
    else modify fun m => m.writeBytes p data

/-- **`copy_from`** to a slice of `n` bytes. The result is its new content. -/
def copyFrom (d : DirectDMA) (ptr : ℕ) (n : ℕ) : HostM (List Byte) :=
  let stop := wrappingAdd ptr n
  if d.size < stop then fail ⟨ptr, stop, d.size⟩
  else if d.devName = "zynqmp" then
    let remainingBytes := n % 8
    let alignedBytes := n - remainingBytes
    let alignedEnd := wrappingSub stop remainingBytes
    do
      let src ← d.slice (wrappingAdd d.offset ptr) (wrappingAdd d.offset alignedEnd)
      let aligned ← cloneFromSlice alignedBytes src
      if remainingBytes ≠ 0 then do
        let remaining ← collect
          (fun i => d.index (wrappingAdd (wrappingAdd d.offset alignedEnd) i))
          (List.range remainingBytes)
        pure (aligned ++ remaining)
      else pure aligned
  else do
    let src ← d.slice (wrappingAdd d.offset ptr) (wrappingAdd d.offset stop)
    cloneFromSlice n src

/-! ### What the transfers do -/

/-- The address in the process of the first byte that is transferred. -/
def target (d : DirectDMA) (ptr : ℕ) : ℕ :=
  wrappingAdd d.memory.base (wrappingAdd d.offset ptr)

variable {n : ℕ}

theorem storeEach_eq (data : List Byte) {first : ℕ} (p : ℕ) (h : first + n ≤ data.length)
    (m : ByteMem) : storeEach data first p n m = m.writeBytes p ((data.drop first).take n) := by
  induction n with
  | zero => rw [storeEach, range_zero, foldl_nil, take_zero, writeBytes_nil]
  | succ n ih =>
    have hlt : n < (data.drop first).length := by
      rw [length_drop]
      omega
    have hg : data.getD (first + n) 0 = (data.drop first)[n] := by
      rw [getElem_drop, getD_eq_getElem _ _ (by omega)]
    rw [storeEach, range_succ, foldl_append, foldl_cons, foldl_nil,
      take_add_one, getElem?_eq_getElem hlt, Option.toList_some,
      writeBytes_append, length_take, min_eq_left (le_of_lt hlt), hg]
    exact congrArg (fun m : ByteMem => m.writeBytes (p + n) _) (ih (by omega))

theorem writeBytes_take_drop (m : ByteMem) (p : ℕ) {data : List Byte} (h : n ≤ data.length) :
    m.writeBytes p data = (m.writeBytes p (data.take n)).writeBytes (p + n) (data.drop n) := by
  have ha := m.writeBytes_append p (data.take n) (data.drop n)
  rwa [take_append_drop, length_take, min_eq_left h] at ha

/-- **`copy_to`** refuses the transfer or writes the data, whatever the device. -/
theorem copyTo_eq (d : DirectDMA) (data : List Byte) (ptr : ℕ) (m : ByteMem) :
    d.copyTo data ptr m =
      if d.size < wrappingAdd ptr data.length then
        (.err ⟨ptr, wrappingAdd ptr data.length, d.size⟩, m)
      else (.ok ⟨⟩, m.writeBytes (d.target ptr) data) := by
  have hs : data.length - data.length % 8 + data.length % 8 = data.length :=
    Nat.sub_add_cancel (Nat.mod_le _ _)
  rw [copyTo]
  by_cases hra : d.size < wrappingAdd ptr data.length
  · rw [if_pos hra, if_pos hra, fail_apply]
  rw [if_neg hra, if_neg hra]
  by_cases hd : d.devName = "zynqmp"
  · rw [if_pos hd, bind_of_ok (modify_apply _ _)]
    by_cases hr : data.length % 8 = 0
    · rw [if_neg (not_not.mpr hr), hr, Nat.sub_zero, take_length]
      rfl
    rw [if_pos hr, modify_apply, storeEach_eq _ _ (le_of_eq hs),
      take_of_length_le (l := data.drop _) (by rw [length_drop]; omega),
      ← writeBytes_take_drop m _ (Nat.sub_le data.length (data.length % 8))]
    rfl
  · rw [if_neg hd, modify_apply]
    rfl

/-- A slice of the mapping from `start` that has `n` bytes with 64-bit sums, copied to `n`
bytes. -/
theorem slice_cloneFromSlice (d : DirectDMA) {start : ℕ} (hst : start < 2 ^ 64) (hn : n < 2 ^ 64)
    (m : ByteMem) :
    (d.slice start (wrappingAdd start n) >>= cloneFromSlice n) m =
      if start + n ≤ d.memory.len then (.ok (m.readBytes (d.memory.base + start) n), m)
      else (.panic, m) := by
  have hf := d.memory.fits
  by_cases hi : start + n ≤ d.memory.len
  · have hs : wrappingAdd start n = start + n := wrappingAdd_of_lt (by omega)
    have hsl : d.slice start (wrappingAdd start n) m =
        (.ok (m.readBytes (d.memory.base + start) n), m) := by
      rw [hs, slice, if_pos ⟨by omega, hi⟩, Nat.add_sub_cancel_left]
    rw [if_pos hi, bind_of_ok hsl, cloneFromSlice,
      if_pos (length_readBytes _ _ _), pure_apply]
  · -- A sum that wraps around is smaller than `start`.
    have ho : ¬(start ≤ wrappingAdd start n ∧ wrappingAdd start n ≤ d.memory.len) := by
      simp only [wrappingAdd]
      omega
    have hsl : d.slice start (wrappingAdd start n) m = (.panic, m) := by
      rw [slice, if_neg ho]
    rw [if_neg hi, bind_of_panic hsl]

theorem collect_index (d : DirectDMA) {start : ℕ} (hs : start ≤ d.memory.len) (m : ByteMem) :
    collect (fun i => d.index (wrappingAdd start i)) (List.range n) m =
      if start + n ≤ d.memory.len then (.ok (m.readBytes (d.memory.base + start) n), m)
      else (.panic, m) := by
  have hf := d.memory.fits
  by_cases hin : start + n ≤ d.memory.len
  · rw [if_pos hin]
    refine collect_of_reads fun i hi => ?_
    rw [List.mem_range] at hi
    rw [index, wrappingAdd_of_lt (by omega), if_pos (by omega), add_assoc]
  rw [if_neg hin]
  refine collect_of_panic (fun i _ => ?_)
    ⟨d.memory.len - start, List.mem_range.mpr (by omega), ?_⟩
  · rw [index]
    split
    · exact .inl ⟨_, rfl⟩
    · exact .inr rfl
  · rw [index, wrappingAdd_of_lt (by omega), if_neg (by omega)]

theorem copyFrom_eq (d : DirectDMA) (ptr : ℕ) (hn : n < 2 ^ 64) (m : ByteMem) :
    d.copyFrom ptr n m =
      if d.size < wrappingAdd ptr n then (.err ⟨ptr, wrappingAdd ptr n, d.size⟩, m)
      else if wrappingAdd d.offset ptr + n ≤ d.memory.len then
        (.ok (m.readBytes (d.memory.base + wrappingAdd d.offset ptr) n), m) else (.panic, m) := by
  have hs : wrappingAdd d.offset ptr < 2 ^ 64 := Nat.mod_lt _ (by omega)
  have hf := d.memory.fits
  rw [copyFrom]
  by_cases hra : d.size < wrappingAdd ptr n
  · rw [if_pos hra, if_pos hra, fail_apply]
  rw [if_neg hra, if_neg hra]
  by_cases hd : d.devName = "zynqmp"
  · have he : wrappingAdd d.offset (wrappingSub (wrappingAdd ptr n) (n % 8)) =
        wrappingAdd (wrappingAdd d.offset ptr) (n - n % 8) := by
      simp only [wrappingAdd, wrappingSub]
      omega
    have hal := d.slice_cloneFromSlice (n := n - n % 8) hs (by omega) m
    rw [if_pos hd, he, ← bind_assoc_apply]
    by_cases hi : wrappingAdd d.offset ptr + (n - n % 8) ≤ d.memory.len
    · rw [if_pos hi] at hal
      rw [bind_of_ok hal, wrappingAdd_of_lt (a := wrappingAdd d.offset ptr) (by omega)]
      by_cases hr : n % 8 = 0
      · rw [if_neg (not_not.mpr hr), if_pos (by omega), hr, Nat.sub_zero, pure_apply]
      have hre := d.collect_index (n := n % 8) hi m
      rw [if_pos hr]
      by_cases ha : wrappingAdd d.offset ptr + n ≤ d.memory.len
      · rw [if_pos (by omega)] at hre
        rw [bind_of_ok hre, if_pos ha, pure_apply, ← add_assoc,
          ← readBytes_add, Nat.sub_add_cancel (Nat.mod_le _ _)]
      · rw [if_neg (by omega)] at hre
        rw [bind_of_panic hre, if_neg ha]
    · rw [if_neg hi] at hal
      rw [bind_of_panic hal, if_neg (by omega)]
  · have he : wrappingAdd d.offset (wrappingAdd ptr n) =
        wrappingAdd (wrappingAdd d.offset ptr) n := by
      simp only [wrappingAdd]
      omega
    rw [if_neg hd, he]
    exact d.slice_cloneFromSlice hs hn m

/-! ### Bounds -/

/-- The address in the process that belongs to `ptr` without any wrapping. -/
def hostAddress (d : DirectDMA) (ptr : ℕ) : ℕ :=
  d.memory.base + d.offset + ptr

/-- `copy_to` respects the bounds: it is refused exactly if the range does not lie in the
memory, and whatever the memory contains, only bytes of the range change. -/
structure BoundedTo (d : DirectDMA) (data : List Byte) (ptr : ℕ) : Prop where
  accepts : ∀ m, (∀ e, (d.copyTo data ptr m).1 ≠ .err e) ↔ ptr + data.length ≤ d.size
  within : ∀ m a, a < d.hostAddress ptr ∨ d.hostAddress ptr + data.length ≤ a →
    (d.copyTo data ptr m).2 a = m a

/-- `copy_from` respects the bounds: it is refused exactly if the range does not lie in the
memory, and its result depends on the bytes of the range only. -/
structure BoundedFrom (d : DirectDMA) (ptr : ℕ) (n : ℕ) : Prop where
  accepts : ∀ m, (∀ e, (d.copyFrom ptr n m).1 ≠ .err e) ↔ ptr + n ≤ d.size
  within : ∀ m m' : ByteMem,
    (∀ a, d.hostAddress ptr ≤ a → a < d.hostAddress ptr + n → m a = m' a) →
    (d.copyFrom ptr n m).1 = (d.copyFrom ptr n m').1

theorem copyTo_accepts_iff (d : DirectDMA) (data : List Byte) (ptr : ℕ) (m : ByteMem) :
    (∀ e, (d.copyTo data ptr m).1 ≠ .err e) ↔ wrappingAdd ptr data.length ≤ d.size := by
  rw [copyTo_eq]
  split <;> simp <;> omega

theorem copyFrom_accepts_iff (d : DirectDMA) (ptr : ℕ) (hn : n < 2 ^ 64) (m : ByteMem) :
    (∀ e, (d.copyFrom ptr n m).1 ≠ .err e) ↔ wrappingAdd ptr n ≤ d.size := by
  rw [copyFrom_eq d ptr hn]
  split
  · simp
    omega
  · split <;> simp <;> omega

theorem wrappingAdd_le_size_iff (d : DirectDMA) {ptr : ℕ} (hp : ptr < 2 ^ 64) (hn : n < 2 ^ 64) :
    (wrappingAdd ptr n ≤ d.size ↔ ptr + n ≤ d.size) ↔
      (ptr + n < 2 ^ 64 ∨ d.size < ptr + n - 2 ^ 64) := by
  have hs := d.size_lt
  rw [wrappingAdd]
  omega

theorem target_eq_iff (d : DirectDMA) (ptr : ℕ) :
    d.target ptr = d.hostAddress ptr ↔ d.hostAddress ptr < 2 ^ 64 := by
  rw [target, hostAddress, wrappingAdd, wrappingAdd]
  omega

theorem BoundedTo.hostAddress_lt {d : DirectDMA} {data : List Byte} {ptr : ℕ}
    (h : d.BoundedTo data ptr) (hne : data ≠ []) (hle : ptr + data.length ≤ d.size) :
    d.hostAddress ptr < 2 ^ 64 := by
  obtain ⟨b, rest, rfl⟩ := exists_cons_of_ne_nil hne
  by_contra hge
  -- The first byte is written below the range, and may have been another one before.
  have hlt : d.target ptr < d.hostAddress ptr := by
    have : d.target ptr < 2 ^ 64 := Nat.mod_lt _ (by omega)
    omega
  have ha := (d.copyTo_accepts_iff (b :: rest) ptr fun _ => b + 1).mp
    ((h.accepts _).mpr hle)
  have hk := h.within (fun _ => b + 1) (d.target ptr) (.inl hlt)
  rw [copyTo_eq, if_neg (by omega)] at hk
  simp [writeBytes] at hk

/-- **Bounds of direct transfers**: both directions respect the bounds exactly if the end of the
range does not wrap around to the inside of the memory, and the window lies in the mapping. -/
theorem bounded_iff (d : DirectDMA) (data : List Byte) {ptr : ℕ}
    (hptr : ptr < 2 ^ 64) (hlen : data.length < 2 ^ 64) :
    (d.BoundedTo data ptr ∧ d.BoundedFrom ptr data.length) ↔
      (ptr + data.length < 2 ^ 64 ∨ d.size < ptr + data.length - 2 ^ 64) ∧
        (data ≠ [] → ptr + data.length ≤ d.size → d.hostAddress ptr < 2 ^ 64) := by
  constructor
  · rintro ⟨hto, -⟩
    refine ⟨(d.wrappingAdd_le_size_iff hptr hlen).mp ?_, fun hne hle => ?_⟩
    · rw [← hto.accepts fun _ => 0, copyTo_accepts_iff]
    · exact hto.hostAddress_lt hne hle
  · rintro ⟨hwrap, hwindow⟩
    have hcheck := (d.wrappingAdd_le_size_iff hptr hlen).mpr hwrap
    refine ⟨⟨fun m => ?_, fun m a ha => ?_⟩, ⟨fun m => ?_, fun m m' heq => ?_⟩⟩
    · rw [copyTo_accepts_iff, hcheck]
    · rw [copyTo_eq]
      split
      · rfl
      next hacc =>
        rcases eq_or_ne data [] with rfl | hne
        · rw [writeBytes_nil]
        · have htarget := (d.target_eq_iff ptr).mpr (hwindow hne (hcheck.mp (by omega)))
          rw [htarget]
          exact writeBytes_of_outside ha
    · rw [copyFrom_accepts_iff d ptr hlen, hcheck]
    · rw [copyFrom_eq d ptr hlen, copyFrom_eq d ptr hlen]
      split
      · rfl
      next hacc =>
        split
        next hin =>
          rcases eq_or_ne data [] with rfl | hne
          · rfl
          have hlt := hwindow hne (hcheck.mp (by omega))
          rw [hostAddress] at hlt
          rw [wrappingAdd_of_lt (by omega), ← add_assoc]
          exact congrArg Outcome.ok (readBytes_congr heq)
        · rfl

/-- A local memory of one page at the second page of a mapping. -/
def secondPage : DirectDMA where
  offset := 0x1000
  size := 0x1000
  memory := ⟨0x10000, 0x2000, by decide⟩
  devName := "zynq"
  offset_lt := by decide
  size_lt := by decide

theorem bounded_secondPage : secondPage.BoundedTo [1, 2, 3] 8 ∧ secondPage.BoundedFrom 8 3 :=
  (bounded_iff secondPage [1, 2, 3] (by decide) (by decide)).mpr
    ⟨.inl (by decide), fun _ _ => by decide⟩

/-- **A range that wraps around is accepted**: eight bytes at `2 ^ 64 - 4` end at address 4. The
first half of them is written to the page before the memory. -/
theorem wrapping_transfer_accepted :
    (secondPage.copyTo [1, 2, 3, 4, 5, 6, 7, 8] (2 ^ 64 - 4) fun _ => 0).1 = .ok ⟨⟩ ∧
      secondPage.size < (2 ^ 64 - 4) + 8 ∧
      (secondPage.copyTo [1, 2, 3, 4, 5, 6, 7, 8] (2 ^ 64 - 4) fun _ => 0).2
        (secondPage.memory.base + 0xffc) = 1 ∧
      (secondPage.copyFrom (2 ^ 64 - 4) 8 fun _ => 0).1 = .ok (List.replicate 8 0) := by
  refine ⟨?_, by decide, ?_, ?_⟩
  · rw [copyTo_eq, if_neg (by decide)]
  · rw [copyTo_eq, if_neg (by decide)]
    decide
  · rw [copyFrom_eq secondPage (2 ^ 64 - 4) (n := 8) (by decide), if_neg (by decide),
      if_pos (by decide)]
    decide

/-! ### The ZynqMP -/

/-- **The path of the ZynqMP is the plain one**: for every address and length, both devices have the
same memory and the same result in both directions. Only bytes of the range change, and within a
window of the mapping the range is the one the addresses name, and the transfers return. -/
theorem zynqmp_eq_plain (d : DirectDMA) (plain : String) (data : List Byte) (ptr : ℕ)
    (hlen : data.length < 2 ^ 64) (m : ByteMem) :
    { d with devName := "zynqmp" }.copyTo data ptr m =
        { d with devName := plain }.copyTo data ptr m ∧
      { d with devName := "zynqmp" }.copyFrom ptr data.length m =
        { d with devName := plain }.copyFrom ptr data.length m ∧
      (∀ a, a < d.target ptr ∨ d.target ptr + data.length ≤ a →
        ({ d with devName := "zynqmp" }.copyTo data ptr m).2 a = m a) ∧
      ({ d with devName := "zynqmp" }.copyFrom ptr data.length m).2 = m ∧
      (d.offset + d.size ≤ d.memory.len → ptr + data.length ≤ d.size →
        d.target ptr = d.hostAddress ptr ∧
        ({ d with devName := "zynqmp" }.copyTo data ptr m).1 = .ok ⟨⟩ ∧
        ({ d with devName := "zynqmp" }.copyTo data ptr m).2.Holds (d.hostAddress ptr) data ∧
        ({ d with devName := "zynqmp" }.copyFrom ptr data.length m).1 =
          .ok (m.readBytes (d.hostAddress ptr) data.length)) := by
  have hfits := d.memory.fits
  have hsize := d.size_lt
  refine ⟨?_, ?_, fun a ha => ?_, ?_, fun hwindow hle => ?_⟩
  · rw [copyTo_eq, copyTo_eq]
    rfl
  · rw [copyFrom_eq _ _ hlen, copyFrom_eq _ _ hlen]
  · rw [copyTo_eq]
    split
    · rfl
    · exact writeBytes_of_outside ha
  · rw [copyFrom_eq _ _ hlen]
    split
    · rfl
    · split <;> rfl
  · have hptr : wrappingAdd d.offset ptr = d.offset + ptr := wrappingAdd_of_lt (by omega)
    have htarget : d.target ptr = d.hostAddress ptr :=
      (d.target_eq_iff ptr).mpr (by rw [hostAddress]; omega)
    have haccept : ¬d.size < wrappingAdd ptr data.length := by
      rw [wrappingAdd_of_lt (by omega)]
      omega
    rw [copyTo_eq, copyFrom_eq _ _ hlen, if_neg haccept, if_neg haccept,
      if_pos (by dsimp only; omega)]
    refine ⟨htarget, rfl, ?_, ?_⟩
    · rw [← htarget]
      exact holds_writeBytes _ _ _
    · rw [hptr, hostAddress, add_assoc]

theorem zynqmp_eq_plain_secondPage :
    { secondPage with devName := "zynqmp" }.copyTo [1, 2, 3] 8 (fun _ => 0) =
        secondPage.copyTo [1, 2, 3] 8 (fun _ => 0) ∧
      ({ secondPage with devName := "zynqmp" }.copyFrom 8 3 fun _ => 7).1 = .ok [7, 7, 7] := by
  refine ⟨(zynqmp_eq_plain secondPage "zynq" [1, 2, 3] 8 (by decide) fun _ => 0).1, ?_⟩
  obtain ⟨-, -, -, -, h⟩ := zynqmp_eq_plain secondPage "zynq" [1, 2, 3] 8 (by decide) fun _ => 7
  exact (h (by decide) (by decide)).2.2.2

end DirectDMA

end Tapasco
