import Tapasco.DeviceFile

/-!
# General-Purpose Kernel Buffers

A client of a PCIe device can allocate buffers in the kernel, map them for DMA, and free them by
their id (`pcie_ioctl.c`). The buffers are in a list, which is searched for the id. The field
`dev_addr` of a buffer is the address of its mapping, and says whether there is one: it is zero if
not. When the file is closed, `pcie_device_miscdev_close` gives up all buffers.

This module embeds the four requests and the close, one call at a time. Ids are numbers of 64
bits. Next to the list the model keeps the addresses of the mappings that were made, and those that
were given to `dma_unmap_single`.
-/

open Function List

namespace Tapasco.KernelBuffers

open DeviceFile Runs

def enoent : ℤ := 2

/-- `DMA_MAPPING_ERROR`, what `dma_map_single` returns if it fails. -/
def dmaMappingError : ℕ := 2 ^ 64 - 1

/-- The list of buffers and the address of the next allocation; then the mappings made so far, and
those undone. -/
structure State where
  gpBuffer : List GpBuf
  brk : ℕ
  mapped : List ℕ
  unmapped : List ℕ

def State.new : State :=
  ⟨[], 1, [], []⟩

/-- The addresses that are unmapped when a buffer is given up. -/
def heldBy (b : GpBuf) : List ℕ :=
  if b.devAddr ≠ 0 then [b.devAddr] else []

/-- `pcie_ioctl_kernel_buffer_free`. The loop over the list returns in its first round. -/
def pcieIoctlKernelBufferFree (s : State) (bufferId : ℕ) : State × ℤ :=
  match s.gpBuffer with
  | [] => (s, -enoent)
  | old :: l =>
    if old.bufferId = bufferId then
      ({ s with gpBuffer := l, unmapped := s.unmapped ++ heldBy old }, 0)
    else (s, 0)

/-- The loop of `pcie_ioctl_kernel_buffer_map` and `pcie_ioctl_kernel_buffer_unmap`: the first
buffer with the id gets a new `dev_addr`. The result is what it was, and the list. -/
def setDevAddr (bufferId devAddr : ℕ) : List GpBuf → Option (ℕ × List GpBuf)
  | [] => none
  | b :: l =>
    if b.bufferId = bufferId then some (b.devAddr, { b with devAddr } :: l)
    else (setDevAddr bufferId devAddr l).map fun r => (r.1, b :: r.2)

/-- `pcie_ioctl_kernel_buffer_map`, with what `dma_map_single` returns: the return value, and the
device address. -/
def pcieIoctlKernelBufferMap (s : State) (bufferId handle : ℕ) : State × ℤ × ℕ :=
  match setDevAddr bufferId handle s.gpBuffer with
  | some (_, gpBuffer) =>
    if handle = dmaMappingError then ({ s with gpBuffer }, -enomem, 0)
    else ({ s with gpBuffer, mapped := s.mapped ++ [handle] }, 0, handle)
  | none => (s, -enoent, 0)

def pcieIoctlKernelBufferUnmap (s : State) (bufferId : ℕ) : State × ℤ :=
  match setDevAddr bufferId 0 s.gpBuffer with
  | some (devAddr, gpBuffer) =>
    ({ s with gpBuffer, unmapped := s.unmapped ++ [devAddr] }, 0)
  | none => (s, -enoent)

/-- The loop of `pcie_device_miscdev_close` over the buffers. -/
def closeBuffers : List GpBuf → State → State
  | [], s => s
  | b :: l, s => closeBuffers l { s with gpBuffer := l, unmapped := s.unmapped ++ heldBy b }

inductive Request where
  | allocate (size : ℕ) (kzalloc kmalloc : Bool)
  | free (bufferId : ℕ)
  | map (bufferId handle : ℕ)
  | unmap (bufferId : ℕ)
  | close

/-- The effect of a request, its return value, and the id or address that it returns. -/
def exec (s : State) : Request → State × ℤ × ℕ
  | .allocate size kzalloc kmalloc =>
    let r := pcieIoctlKernelBufferAllocate s.gpBuffer s.brk size kzalloc kmalloc
    ({ s with gpBuffer := r.1, brk := if r.2.1 = 0 then s.brk + 1 else s.brk }, r.2)
  | .free bufferId =>
    ((pcieIoctlKernelBufferFree s bufferId).1, (pcieIoctlKernelBufferFree s bufferId).2, 0)
  | .map bufferId handle => pcieIoctlKernelBufferMap s bufferId handle
  | .unmap bufferId =>
    ((pcieIoctlKernelBufferUnmap s bufferId).1, (pcieIoctlKernelBufferUnmap s bufferId).2, 0)
  | .close => (closeBuffers s.gpBuffer s, 0, 0)

def step (s : State) (r : Request) : State :=
  (exec s r).1

/-! ### The list of buffers -/

def State.ids (s : State) : List ℕ :=
  s.gpBuffer.map GpBuf.bufferId

theorem setDevAddr_cases (i d : ℕ) (l : List GpBuf) :
    (∃ l₁ b l₂, l = l₁ ++ b :: l₂ ∧ b.bufferId = i ∧ (∀ x ∈ l₁, x.bufferId ≠ i) ∧
      setDevAddr i d l = some (b.devAddr, l₁ ++ { b with devAddr := d } :: l₂)) ∨
    (∀ x ∈ l, x.bufferId ≠ i) ∧ setDevAddr i d l = none := by
  induction l with
  | nil => exact .inr ⟨by simp, rfl⟩
  | cons b l ih =>
    by_cases hb : b.bufferId = i
    · exact .inl ⟨[], b, l, rfl, hb, by simp, by rw [setDevAddr, if_pos hb]; rfl⟩
    rcases ih with ⟨l₁, c, l₂, rfl, hc, hl₁, heq⟩ | ⟨hl, heq⟩
    · refine .inl ⟨b :: l₁, c, l₂, rfl, hc, forall_mem_cons.mpr ⟨hb, hl₁⟩, ?_⟩
      rw [setDevAddr, if_neg hb, heq]
      rfl
    · refine .inr ⟨forall_mem_cons.mpr ⟨hb, hl⟩, ?_⟩
      rw [setDevAddr, if_neg hb, heq]
      rfl

theorem closeBuffers_eq (l : List GpBuf) (s : State) (hl : s.gpBuffer = l) :
    closeBuffers l s = { s with gpBuffer := [], unmapped := s.unmapped ++ l.flatMap heldBy } := by
  induction l generalizing s with
  | nil => rw [closeBuffers, flatMap_nil, append_nil, ← hl]
  | cons b l ih =>
    rw [closeBuffers, ih _ rfl, flatMap_cons, append_assoc]

/-! ### Ids -/

/-- The ids in the list are successive numbers of 64 bits. -/
def Consecutive (s : State) : Prop :=
  ∃ first n, n ≤ 2 ^ 64 ∧ s.ids = (List.range n).map fun i => (first + i) % 2 ^ 64

theorem Consecutive.nodup {s : State} (h : Consecutive s) : s.ids.Nodup := by
  obtain ⟨first, n, hn, hid⟩ := h
  rw [hid]
  refine List.Nodup.map_on (fun i hi j hj heq => ?_) nodup_range
  rw [List.mem_range] at hi hj
  omega

theorem nextBufferId_eq (l : List GpBuf) :
    nextBufferId l = (l.map GpBuf.bufferId).getLast?.elim 1 (· + 1) := by
  rw [nextBufferId, getLast?_map]
  cases l.getLast? <;> rfl

theorem nextBufferId_consecutive {s : State} {first n : ℕ}
    (hi : s.ids = (List.range n).map fun i => (first + i) % 2 ^ 64) (hp : 0 < n) :
    nextBufferId s.gpBuffer % 2 ^ 64 = (first + n) % 2 ^ 64 := by
  obtain ⟨m, rfl⟩ := Nat.exists_eq_add_of_lt hp
  rw [zero_add] at hi ⊢
  have hl : s.ids.getLast? = some ((first + m) % 2 ^ 64) := by
    rw [hi, range_succ, map_append, map_singleton, getLast?_concat]
  rw [nextBufferId_eq, ← State.ids, hl, Option.elim_some, Nat.mod_add_mod, add_assoc]

variable {b : GpBuf} {l : List GpBuf}

section Ids

variable {s : State}

theorem ids_allocate (size : ℕ) (kzalloc kmalloc : Bool) :
    (exec s (.allocate size kzalloc kmalloc)).1 = s ∧
        (exec s (.allocate size kzalloc kmalloc)).2.1 ≠ 0 ∨
      s.gpBuffer.length < 2 ^ 64 ∧ exec s (.allocate size kzalloc kmalloc) =
        ({ s with
            gpBuffer := s.gpBuffer ++ [⟨s.brk, 0, size, nextBufferId s.gpBuffer % 2 ^ 64⟩]
            brk := s.brk + 1 }, 0, nextBufferId s.gpBuffer % 2 ^ 64) := by
  rw [exec]
  obtain heq | ⟨hlt, heq⟩ :=
    pcieIoctlKernelBufferAllocate_cases s.gpBuffer s.brk size kzalloc kmalloc <;> simp only [heq]
  · exact .inl ⟨rfl, by decide⟩
  · exact .inr ⟨hlt, rfl⟩

theorem ids_setDevAddr {i d d' : ℕ} {l' : List GpBuf} (h : setDevAddr i d l = some (d', l')) :
    l'.map GpBuf.bufferId = l.map GpBuf.bufferId := by
  rcases setDevAddr_cases i d l with ⟨l₁, b, l₂, rfl, -, -, heq⟩ | ⟨-, heq⟩
  · rw [heq, Option.some.injEq, Prod.mk.injEq] at h
    rw [← h.2]
    simp
  · exact absurd (heq.symm.trans h) (by simp)

theorem ids_map (i handle : ℕ) : (step s (.map i handle)).ids = s.ids := by
  rw [step, exec, pcieIoctlKernelBufferMap]
  split
  · rename_i h
    split <;> exact ids_setDevAddr h
  · rfl

theorem ids_unmap (i : ℕ) : (step s (.unmap i)).ids = s.ids := by
  rw [step, exec, pcieIoctlKernelBufferUnmap]
  split
  · rename_i h
    exact ids_setDevAddr h
  · rfl

theorem consecutive_step (r : Request) (h : Consecutive s) : Consecutive (step s r) := by
  obtain ⟨first, n, hn, hi⟩ := h
  cases r with
  | allocate size kzalloc kmalloc =>
    rcases ids_allocate (s := s) size kzalloc kmalloc with ⟨heq, -⟩ | ⟨hr, heq⟩
    · rw [step, heq]
      exact ⟨first, n, hn, hi⟩
    have hlen : s.gpBuffer.length = n := by
      have hl := congrArg List.length hi
      rwa [State.ids, length_map, length_map, length_range] at hl
    have hnew : (step s (.allocate size kzalloc kmalloc)).ids =
        s.ids ++ [nextBufferId s.gpBuffer % 2 ^ 64] := by
      rw [step, heq, State.ids, map_append]
      rfl
    rcases Nat.eq_zero_or_pos n with rfl | hp
    · have hni : s.gpBuffer = [] := length_eq_zero_iff.mp hlen
      refine ⟨1, 1, by decide, ?_⟩
      rw [hnew, hi, hni]
      rfl
    · refine ⟨first, n + 1, by omega, ?_⟩
      rw [hnew, hi, nextBufferId_consecutive hi hp, range_succ, map_append]
      rfl
  | free i =>
    rw [step, exec, pcieIoctlKernelBufferFree]
    split
    · exact ⟨first, n, hn, hi⟩
    · rename_i old l hli
      split
      · obtain _ | n := n
        · rw [State.ids, hli] at hi
          simp at hi
        · refine ⟨first + 1, n, by omega, ?_⟩
          rw [State.ids, hli, range_succ_eq_map, map_cons, map_cons, List.cons.injEq, map_map] at hi
          rw [State.ids, hi.2]
          refine map_congr_left fun i _ => ?_
          rw [comp_apply, Nat.succ_eq_add_one, add_assoc, add_comm 1]
      · exact ⟨first, n, hn, hi⟩
  | map i handle => exact ⟨first, n, hn, (ids_map i handle).trans hi⟩
  | unmap i => exact ⟨first, n, hn, (ids_unmap i).trans hi⟩
  | close =>
    refine ⟨0, 0, Nat.zero_le _, ?_⟩
    rw [step, exec, closeBuffers_eq _ _ rfl]
    rfl

end Ids

/-! ### A finite map -/

def State.table (s : State) (bufferId : ℕ) : Option GpBuf :=
  s.gpBuffer.find? fun b => b.bufferId = bufferId

/-- **What a request has to do to the map**: an allocation adds a buffer under an id that is not
live, a free removes the buffer with its id, and a map or unmap replaces it; without such a buffer,
an error is returned and nothing is changed. -/
def Behaves (s : State) (r : Request) : Prop :=
  match r with
  | .allocate size _ _ =>
    if (exec s r).2.1 = 0 then
      s.table (exec s r).2.2 = none ∧ ∃ buf, (exec s r).1.table =
        Function.update s.table (exec s r).2.2 (some ⟨buf, 0, size, (exec s r).2.2⟩)
    else (exec s r).1 = s
  | .free i =>
    match s.table i with
    | some _ => (exec s r).2.1 = 0 ∧ (exec s r).1.table = Function.update s.table i none
    | none => (exec s r).2.1 ≠ 0 ∧ (exec s r).1 = s
  | .map i handle =>
    match s.table i with
    | some b => ((exec s r).2.1 = 0 ↔ handle ≠ dmaMappingError) ∧ (exec s r).1.table =
        Function.update s.table i (some { b with devAddr := handle })
    | none => (exec s r).2.1 ≠ 0 ∧ (exec s r).1 = s
  | .unmap i =>
    match s.table i with
    | some b => (exec s r).2.1 = 0 ∧ (exec s r).1.table =
        Function.update s.table i (some { b with devAddr := 0 })
    | none => (exec s r).2.1 ≠ 0 ∧ (exec s r).1 = s
  | .close => (exec s r).1.table = fun _ => none

/-- A free is for the first buffer of the list, or there is none. -/
def FreesFirst (s : State) : Request → Prop
  | .free i => ∀ b, s.gpBuffer.head? = some b → b.bufferId = i
  | _ => True

section Table

theorem find?_eq_none_of_forall {i : ℕ} (h : ∀ x ∈ l, x.bufferId ≠ i) :
    (l.find? fun b => b.bufferId = i) = none :=
  find?_eq_none.mpr fun x hx => by simpa using h x hx

theorem find?_concat (h : ∀ x ∈ l, x.bufferId ≠ b.bufferId) :
    (fun i => (l ++ [b]).find? fun x => x.bufferId = i) =
      update (fun i => l.find? fun x => x.bufferId = i) b.bufferId (some b) := by
  funext i
  rw [find?_append]
  by_cases hi : i = b.bufferId
  · rw [hi, update_self, find?_eq_none_of_forall h]
    simp
  · rw [update_of_ne hi, find?_cons_of_neg (by simpa using Ne.symm hi)]
    simp

theorem find?_tail (h : ∀ x ∈ l, x.bufferId ≠ b.bufferId) :
    (fun i => l.find? fun x => x.bufferId = i) =
      update (fun i => (b :: l).find? fun x => x.bufferId = i) b.bufferId none := by
  funext i
  by_cases hi : i = b.bufferId
  · rw [hi, update_self, find?_eq_none_of_forall h]
  · rw [update_of_ne hi, find?_cons_of_neg (by simpa using Ne.symm hi)]

theorem find?_setDevAddr {l₁ : List GpBuf} (h : ∀ x ∈ l₁, x.bufferId ≠ b.bufferId) (l₂ : List GpBuf)
    (d : ℕ) :
    (fun i => (l₁ ++ { b with devAddr := d } :: l₂).find? fun x => x.bufferId = i) =
      update (fun i => (l₁ ++ b :: l₂).find? fun x => x.bufferId = i) b.bufferId
        (some { b with devAddr := d }) := by
  funext i
  rw [find?_append]
  by_cases hi : i = b.bufferId
  · rw [hi, update_self, find?_eq_none_of_forall h, Option.none_or, find?_cons_of_pos (by simp)]
  · rw [update_of_ne hi, find?_append, find?_cons_of_neg (by simpa using Ne.symm hi),
      find?_cons_of_neg (by simpa using Ne.symm hi)]

theorem table_of_append {s : State} (l₁ : List GpBuf) {l₂ : List GpBuf}
    (hl : s.gpBuffer = l₁ ++ b :: l₂) (h : ∀ x ∈ l₁, x.bufferId ≠ b.bufferId) :
    s.table b.bufferId = some b := by
  rw [State.table, hl, find?_append, find?_eq_none_of_forall h, Option.none_or,
    find?_cons_of_pos (by simp)]

end Table

section Behaves

variable {s : State}

theorem behaves_allocate (h : Consecutive s) (size : ℕ) (kzalloc kmalloc : Bool) :
    Behaves s (.allocate size kzalloc kmalloc) := by
  rcases ids_allocate (s := s) size kzalloc kmalloc with ⟨heq, hr⟩ | ⟨-, heq⟩
  · rw [Behaves, if_neg hr]
    exact heq
  -- the new id is not live, as the ids stay different
  have hf : ∀ x ∈ s.gpBuffer, x.bufferId ≠ nextBufferId s.gpBuffer % 2 ^ 64 := by
    have hn := (consecutive_step (.allocate size kzalloc kmalloc) h).nodup
    rw [step, heq, State.ids, map_append, nodup_append] at hn
    exact fun x hx => hn.2.2 _ (mem_map_of_mem hx) _ (by simp)
  rw [Behaves, heq, if_pos rfl]
  exact ⟨find?_eq_none_of_forall hf, s.brk, find?_concat hf⟩

theorem behaves_map (i handle : ℕ) : Behaves s (.map i handle) := by
  rcases setDevAddr_cases i handle s.gpBuffer with
    ⟨l₁, b, l₂, hl, rfl, hl₁, heq⟩ | ⟨hn, heq⟩
  · simp only [Behaves, table_of_append l₁ hl hl₁, exec, pcieIoctlKernelBufferMap, heq]
    have ht := find?_setDevAddr hl₁ l₂ handle
    rw [← hl] at ht
    split
    · rename_i he
      exact ⟨iff_of_false (by simp [enomem]) (not_not.mpr he), ht⟩
    · rename_i he
      exact ⟨iff_of_true rfl he, ht⟩
  · have ht : s.table i = none := find?_eq_none_of_forall hn
    simp only [Behaves, ht, exec, pcieIoctlKernelBufferMap, heq]
    exact ⟨by simp [enoent], trivial⟩

theorem behaves_unmap (i : ℕ) : Behaves s (.unmap i) := by
  rcases setDevAddr_cases i 0 s.gpBuffer with ⟨l₁, b, l₂, hl, rfl, hl₁, heq⟩ | ⟨hn, heq⟩
  · simp only [Behaves, table_of_append l₁ hl hl₁, exec, pcieIoctlKernelBufferUnmap, heq]
    refine ⟨trivial, ?_⟩
    have ht := find?_setDevAddr hl₁ l₂ 0
    rw [← hl] at ht
    exact ht
  · have ht : s.table i = none := find?_eq_none_of_forall hn
    simp only [Behaves, ht, exec, pcieIoctlKernelBufferUnmap, heq]
    exact ⟨by simp [enoent], trivial⟩

/-- **A free** behaves exactly if it is for the first buffer. -/
theorem behaves_free_iff (h : Consecutive s) (i : ℕ) :
    Behaves s (.free i) ↔ FreesFirst s (.free i) := by
  cases hl : s.gpBuffer with
  | nil =>
    have ht : s.table i = none := by rw [State.table, hl]; rfl
    refine iff_of_true ?_ fun b hb => absurd hb (by simp [hl])
    simp only [Behaves, ht, exec, pcieIoctlKernelBufferFree, hl]
    exact ⟨by simp [enoent], trivial⟩
  | cons b l =>
    have hn := h.nodup
    rw [State.ids, hl, map_cons, nodup_cons] at hn
    have ho : ∀ x ∈ l, x.bufferId ≠ b.bufferId := fun x hx heq =>
      hn.1 (heq ▸ mem_map_of_mem hx)
    have hf : FreesFirst s (.free i) ↔ b.bufferId = i := by
      simp only [FreesFirst, hl, head?_cons, Option.some.injEq, forall_eq']
    rw [hf]
    by_cases hi : b.bufferId = i
    · refine iff_of_true ?_ hi
      have ht : s.table i = some b := hi ▸ table_of_append [] hl (by simp)
      have hta : (fun i => l.find? fun x => x.bufferId = i) =
          update s.table i none := by
        rw [find?_tail ho, ← hl, hi]
        rfl
      simp only [Behaves, ht, exec, pcieIoctlKernelBufferFree, hl, if_pos hi]
      exact ⟨trivial, hta⟩
    · refine iff_of_false (fun hbe => ?_) hi
      have hex : exec s (.free i) = (s, 0, 0) := by
        simp only [exec, pcieIoctlKernelBufferFree, hl, if_neg hi]
      simp only [Behaves, hex] at hbe
      split at hbe
      · rename_i x hx
        have hno := congrFun hbe.2 i
        rw [update_self] at hno
        exact absurd (hx.symm.trans hno) (by simp)
      · exact hbe.1 rfl

theorem behaves_iff (r : Request) (h : Consecutive s) : Behaves s r ↔ FreesFirst s r := by
  cases r with
  | allocate size kzalloc kmalloc =>
    exact iff_of_true (behaves_allocate h size kzalloc kmalloc) trivial
  | free i => exact behaves_free_iff h i
  | map i handle => exact iff_of_true (behaves_map i handle) trivial
  | unmap i => exact iff_of_true (behaves_unmap i) trivial
  | close =>
    refine iff_of_true ?_ trivial
    rw [Behaves, exec, closeBuffers_eq _ _ rfl]
    rfl

end Behaves

/-- **General-purpose buffers are a finite map** in a run, that is, ids of live buffers are
different and every request does what it has to do, exactly if every free is for the first buffer of
the list, or the list is empty. -/
theorem finiteMap_iff (rs : List Request) :
    (∀ s ∈ trace step .new rs, s.ids.Nodup) ∧ Runs.AllSteps step Behaves .new rs ↔
      Runs.AllSteps step FreesFirst .new rs := by
  refine trace_and_steps_iff (J := Consecutive) (fun s h => h.nodup)
    (fun s r h _ => consecutive_step r h) (fun s r h => ?_) ⟨0, 0, Nat.zero_le _, rfl⟩ rs
  rw [behaves_iff r h, and_iff_right (consecutive_step r h).nodup]

/-- A free of the second of two buffers returns zero, and does not remove it; so does a free of an
id that no buffer has. -/
theorem second_buffer_not_freed :
    (run step .new [.allocate 8 true true, .allocate 8 true true]).ids = [1, 2] ∧
      (run step .new [.allocate 8 true true, .allocate 8 true true, .free 2]).ids = [1, 2] ∧
      (∀ i < 9, (exec (run step .new [.allocate 8 true true, .allocate 8 true true])
        (.free i)).2.1 = 0) ∧
      ¬ ((∀ s ∈ trace step .new [.allocate 8 true true, .allocate 8 true true, .free 2],
          s.ids.Nodup) ∧
        Runs.AllSteps step Behaves .new
          [.allocate 8 true true, .allocate 8 true true, .free 2]) := by
  refine ⟨by decide, by decide, by decide, fun h => ?_⟩
  have hfree : Behaves _ (.free 2) := h.2.2.2.1
  have hnone := congrFun hfree.2 2
  exact absurd hnone (by decide)

/-! ### Mappings -/

/-- The mappings that the live buffers hold. -/
def State.held (s : State) : List ℕ :=
  s.gpBuffer.flatMap heldBy

/-- **The mappings are balanced**: those that were made are those that were undone and those that
live buffers hold. After a close there is none left. -/
def Balanced (s : State) : Prop :=
  s.mapped.Perm (s.unmapped ++ s.held)

/-- The condition on a request: a map is for a buffer without a mapping and succeeds, with an
address other than zero, and an unmap is for a buffer with a mapping. -/
def Pairs (s : State) : Request → Prop
  | .map i handle => ∀ b, s.table i = some b →
      b.devAddr = 0 ∧ handle ≠ 0 ∧ handle ≠ dmaMappingError
  | .unmap i => ∀ b, s.table i = some b → b.devAddr ≠ 0
  | _ => True

/-- Mappings that were made have proper addresses. -/
def Proper (s : State) : Prop :=
  dmaMappingError ∉ s.mapped

section Balanced

variable {s : State}

theorem heldBy_of_eq (h : b.devAddr = 0) : heldBy b = [] :=
  if_neg (not_not.mpr h)

theorem heldBy_of_ne (h : b.devAddr ≠ 0) : heldBy b = [b.devAddr] :=
  if_pos h

/-- When one buffer holds `y` in place of `x`, the balance is what was made and undone for it. -/
theorem perm_held_iff {made undone before x after : List ℕ}
    (h : made.Perm (undone ++ (before ++ (x ++ after)))) (new old y : List ℕ) :
    (made ++ new).Perm (undone ++ old ++ (before ++ (y ++ after))) ↔
      (x ++ new).Perm (old ++ y) := by
  simp only [perm_iff_count, count_append] at h ⊢
  exact forall_congr' fun a => by have := h a; omega

theorem proper_step (s : State) (r : Request) (h : Proper s) : Proper (step s r) := by
  cases r with
  | allocate size kzalloc kmalloc =>
    rcases ids_allocate (s := s) size kzalloc kmalloc with ⟨heq, -⟩ | ⟨-, heq⟩
    · rw [step, heq]
      exact h
    · rw [step, heq]
      exact h
  | free i =>
    rw [step, exec, pcieIoctlKernelBufferFree]
    split
    · exact h
    · split <;> exact h
  | map i handle =>
    rw [step, exec, pcieIoctlKernelBufferMap]
    split
    · split
      · exact h
      · rename_i he
        intro hm
        rcases mem_append.mp hm with hm | hm
        · exact h hm
        · exact he (mem_singleton.mp hm).symm
    · exact h
  | unmap i =>
    rw [step, exec, pcieIoctlKernelBufferUnmap]
    split <;> exact h
  | close =>
    rw [step, exec, closeBuffers_eq _ _ rfl]
    exact h

theorem balanced_map_iff (hpr : Proper s) (h : Balanced s) (i handle : ℕ) :
    Balanced (step s (.map i handle)) ↔ Pairs s (.map i handle) := by
  rcases setDevAddr_cases i handle s.gpBuffer with
    ⟨l₁, b, l₂, hli, rfl, hl₁, heq⟩ | ⟨hn, heq⟩
  · have ht := table_of_append l₁ hli hl₁
    have hp : Pairs s (.map b.bufferId handle) ↔
        b.devAddr = 0 ∧ handle ≠ 0 ∧ handle ≠ dmaMappingError := by
      simp only [Pairs, ht, Option.some.injEq, forall_eq']
    rw [hp]
    rw [Balanced, State.held, hli, flatMap_append, flatMap_cons] at h
    by_cases he : handle = dmaMappingError
    · -- the error code is held like a mapping
      refine iff_of_false (fun hba => ?_) fun hr => hr.2.2 he
      simp only [Balanced, step, exec, pcieIoctlKernelBufferMap, heq, if_pos he, State.held] at hba
      refine hpr (hba.symm.subset ?_)
      rw [he]
      simp [heldBy, dmaMappingError]
    have hba := perm_held_iff h [handle] [] (heldBy { b with devAddr := handle })
    rw [append_nil, nil_append] at hba
    simp only [Balanced, step, exec, pcieIoctlKernelBufferMap, heq, if_neg he, State.held,
      flatMap_append, flatMap_cons, hba]
    by_cases hz : b.devAddr = 0
    · rw [heldBy_of_eq hz, nil_append]
      by_cases hh : handle = 0
      · rw [heldBy_of_eq hh]
        simp [hh]
      · rw [heldBy_of_ne hh]
        simp [hz, hh, he]
    · rw [heldBy_of_ne hz]
      refine iff_of_false (fun hp => ?_) fun hr => hz hr.1
      have hle := hp.length_eq
      rw [heldBy] at hle
      split at hle <;> simp at hle
  · have ht : s.table i = none := find?_eq_none_of_forall hn
    refine iff_of_true ?_ fun b hb => absurd (ht.symm.trans hb) (by simp)
    simp only [step, exec, pcieIoctlKernelBufferMap, heq]
    exact h

theorem balanced_unmap_iff (h : Balanced s) (i : ℕ) :
    Balanced (step s (.unmap i)) ↔ Pairs s (.unmap i) := by
  rcases setDevAddr_cases i 0 s.gpBuffer with ⟨l₁, b, l₂, hli, rfl, hl₁, heq⟩ | ⟨hn, heq⟩
  · have hp : Pairs s (.unmap b.bufferId) ↔ b.devAddr ≠ 0 := by
      simp only [Pairs, table_of_append l₁ hli hl₁, Option.some.injEq, forall_eq']
    rw [hp]
    rw [Balanced, State.held, hli, flatMap_append, flatMap_cons] at h
    have hba := perm_held_iff h [] [b.devAddr] []
    rw [append_nil] at hba
    simp only [Balanced, step, exec, pcieIoctlKernelBufferUnmap, heq, State.held, flatMap_append,
      flatMap_cons, heldBy_of_eq (show { b with devAddr := 0 }.devAddr = 0 from rfl), hba]
    by_cases hz : b.devAddr = 0
    · simp [heldBy_of_eq hz, hz]
    · simp [heldBy_of_ne hz, hz]
  · have ht : s.table i = none := find?_eq_none_of_forall hn
    refine iff_of_true ?_ fun b hb => absurd (ht.symm.trans hb) (by simp)
    simp only [step, exec, pcieIoctlKernelBufferUnmap, heq]
    exact h

theorem balanced_step_iff (s : State) (r : Request) (hp : Proper s) (h : Balanced s) :
    Balanced (step s r) ↔ Pairs s r := by
  cases r with
  | allocate size kzalloc kmalloc =>
    refine iff_of_true ?_ trivial
    rcases ids_allocate (s := s) size kzalloc kmalloc with ⟨heq, -⟩ | ⟨-, heq⟩
    · rw [step, heq]
      exact h
    · rw [step, heq, Balanced, State.held, flatMap_append, flatMap_singleton,
        heldBy_of_eq rfl, append_nil]
      exact h
  | free i =>
    refine iff_of_true ?_ trivial
    rw [step, exec, pcieIoctlKernelBufferFree]
    split
    · exact h
    · rename_i old l hl
      split
      · rw [Balanced, State.held, hl, flatMap_cons, ← append_assoc] at h
        exact h
      · exact h
  | map i handle => exact balanced_map_iff hp h i handle
  | unmap i => exact balanced_unmap_iff h i
  | close =>
    refine iff_of_true ?_ trivial
    rw [step, exec, closeBuffers_eq _ _ rfl, Balanced, State.held, flatMap_nil, append_nil]
    exact h

end Balanced

/-- **DMA mappings are balanced** in every state of a run exactly if every map in it is for a buffer
without a mapping and succeeds, with an address other than zero, and every unmap is for a buffer
with a mapping. -/
theorem balanced_iff (rs : List Request) :
    (∀ s ∈ trace step .new rs, Balanced s) ↔ Runs.AllSteps step Pairs .new rs :=
  forall_mem_trace_iff proper_step balanced_step_iff (by simp [Proper, State.new])
    (show Balanced .new from List.Perm.refl _) rs

/-- A buffer is mapped twice, and one mapping fails: after the close one mapping is left, and the
error code was unmapped. -/
theorem double_and_failed_mapping :
    (run step .new [.allocate 8 true true, .map 1 100, .map 1 200, .close]).mapped =
        [100, 200] ∧
      (run step .new [.allocate 8 true true, .map 1 100, .map 1 200, .close]).unmapped = [200] ∧
      (run step .new [.allocate 8 true true, .map 1 dmaMappingError, .close]).mapped = [] ∧
      (run step .new [.allocate 8 true true, .map 1 dmaMappingError, .close]).unmapped =
        [dmaMappingError] ∧
      ¬ (∀ s ∈ trace step .new [.allocate 8 true true, .map 1 100, .map 1 200, .close],
        Balanced s) ∧
      ¬ ∀ s ∈ trace step .new [.allocate 8 true true, .map 1 dmaMappingError, .close],
        Balanced s := by
  refine ⟨by decide, by decide, by decide, by decide, fun h => ?_, fun h => ?_⟩
  · exact absurd (h _ (run_mem_trace _ _)).length_eq (by decide)
  · exact absurd (h _ (run_mem_trace _ _)).length_eq (by decide)

end Tapasco.KernelBuffers
