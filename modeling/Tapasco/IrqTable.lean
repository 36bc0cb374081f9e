import Tapasco.IrqHandler
import Tapasco.Lib.Lists
import Tapasco.Lib.Runs

/-!
# The Table of Registered Interrupts

A control structure of the kernel module keeps the registered interrupts in a list sorted
by interrupt number, and for each interrupt controller a cached pointer into that list:
the entry at which the handler of the controller starts. This module embeds the code that
maintains both: `tlkm_device_reg_int`, the loop of `tlkm_control_release`, and the two back
ends `zynq_irq_request_platform_irq` / `zynq_irq_release_platform_irq` and
`pcie_aws_irqs_request_platform_irq` / `pcie_aws_irqs_release_platform_irq`.

The back ends differ in the number of the first interrupt that belongs to a controller:
the first four interrupts of an AWS device are direct lines and touch no controller.

Pointers are the addresses the entries were allocated at. Reading through a pointer to an
entry that is not on the list, running off the array `intc_bases`, and taking the list
head for an entry have no defined result; there the functions return `none`.
-/

open Function Lists List
open Option (map_some bind_some)

namespace Tapasco.Irq

def efault : ℤ := 14

/-- A `tlkm_irq_mapping` on the list, with the address it was allocated at. -/
structure Entry extends IrqMapping where
  addr : ℕ
  deriving DecidableEq

/-- An element of `intc_bases`: the cached pointer, and whether `mapping_base` points to
the head of the list, which it does for the controllers that exist. -/
structure IntcBase where
  mapping : Option ℕ
  mappingBase : Bool

/-- The interrupt list of the control structure, the controllers of the device, and the
address the next allocation returns. -/
structure Control where
  interrupts : List Entry
  intcBases : List IntcBase
  brk : ℕ

/-- The table after the device was initialised, for the controllers that exist. -/
def Control.new (present : List Bool) : Control :=
  ⟨[], present.map (⟨none, ·⟩), 0⟩

/-- The number of the entry a pointer leads to. -/
def irqNoAt (irqs : List Entry) (a : ℕ) : Option ℕ :=
  (irqs.find? fun e => e.addr == a).map fun e => e.irqNo

/-- `list.next` of the entry at an address: the entry that follows, or `none` for the head
of the list. -/
def nextAt (irqs : List Entry) (a : ℕ) : Option (Option Entry) :=
  (findSplit (fun e => e.addr == a) irqs).map fun r => r.2.2.head?

section

variable (first : ℕ)

/-- `irq_controller`: the controller of a number that is not a direct line. -/
def controllerOf (irqNo : ℕ) : ℕ :=
  (irqNo - first) / irqsPerController

/-- The cached pointer when an entry is requested for its controller. -/
def addMapping (irqs : List Entry) (e : Entry) (b : IntcBase) : Option IntcBase :=
  match b.mapping with
  | none => some { b with mapping := some e.addr }
  | some a =>
    (irqNoAt irqs a).map fun n =>
      if e.irqNo < n then { b with mapping := some e.addr } else b

/-- The cached pointer when an entry is released from its controller. -/
def dropMapping (irqs : List Entry) (e : Entry) (b : IntcBase) : Option IntcBase :=
  match b.mapping with
  | none => some b
  | some a =>
    match irqNoAt irqs a with
    | none => none
    | some n =>
      if n = e.irqNo then
        match nextAt irqs e.addr with
        | none => none
        | some none => if b.mappingBase then some { b with mapping := none } else none
        | some (some next) =>
          if controllerOf first next.irqNo = controllerOf first e.irqNo then
            some { b with mapping := some next.addr }
          else some { b with mapping := none }
      else some b

/-- The cached pointer of controller `k` becomes what `f` makes of it. -/
def updateBase (bases : List IntcBase) (k : ℕ) (f : IntcBase → Option IntcBase) :
    Option (List IntcBase) :=
  match bases[k]? with
  | none => none
  | some b => (f b).map fun b' => bases.set k b'

/-- The request of an interrupt, with the number of the first one that belongs to a
controller. -/
def requestPlatformIrq (c : Control) (e : Entry) : Option (List IntcBase) :=
  if e.irqNo < first then some c.intcBases
  else updateBase c.intcBases (controllerOf first e.irqNo) (addMapping c.interrupts e)

/-- The release of an interrupt. -/
def releasePlatformIrq (c : Control) (e : Entry) : Option (List IntcBase) :=
  if e.irqNo < first then some c.intcBases
  else updateBase c.intcBases (controllerOf first e.irqNo) (dropMapping first c.interrupts e)

end

/-- On Zynq every interrupt belongs to a controller. -/
def zynqIrqRequestPlatformIrq : Control → Entry → Option (List IntcBase) :=
  requestPlatformIrq 0

def zynqIrqReleasePlatformIrq : Control → Entry → Option (List IntcBase) :=
  releasePlatformIrq 0

/-- `pcie_aws_irqs_request_platform_irq`. What the request of a direct line returns is
ignored. -/
def pcieAwsIrqsRequestPlatformIrq : Control → Entry → Option (List IntcBase) :=
  requestPlatformIrq numDirectIrqs

def pcieAwsIrqsReleasePlatformIrq : Control → Entry → Option (List IntcBase) :=
  releasePlatformIrq numDirectIrqs

/-- The two back ends. -/
inductive Platform where
  | zynq
  | aws

namespace Platform

/-- The number of the first interrupt that belongs to a controller. -/
def first : Platform → ℕ
  | zynq => 0
  | aws => numDirectIrqs

/-- The request function of a back end. -/
def pirq : Platform → Control → Entry → Option (List IntcBase)
  | zynq => zynqIrqRequestPlatformIrq
  | aws => pcieAwsIrqsRequestPlatformIrq

/-- The release function of a back end. -/
def rirq : Platform → Control → Entry → Option (List IntcBase)
  | zynq => zynqIrqReleasePlatformIrq
  | aws => pcieAwsIrqsReleasePlatformIrq

theorem pirq_eq (p : Platform) : p.pirq = requestPlatformIrq p.first := by
  cases p <;> rfl

theorem rirq_eq (p : Platform) : p.rirq = releasePlatformIrq p.first := by
  cases p <;> rfl

/-- The number belongs to controller `k`. -/
def Serves (p : Platform) (k irqNo : ℕ) : Prop :=
  p.first ≤ irqNo ∧ controllerOf p.first irqNo = k

instance (p : Platform) (k irqNo : ℕ) : Decidable (p.Serves k irqNo) :=
  inferInstanceAs (Decidable (_ ∧ _))

/-- The number belongs to a controller that exists, or is a direct line. -/
def Belongs (p : Platform) (present : List Bool) (irqNo : ℕ) : Prop :=
  irqNo < p.first ∨ present[controllerOf p.first irqNo]? = some true

instance (p : Platform) (present : List Bool) (irqNo : ℕ) :
    Decidable (p.Belongs present irqNo) :=
  inferInstanceAs (Decidable (_ ∨ _))

end Platform

/-- The new entry goes before the first one with a greater number. -/
def insertEntry (e : Entry) : List Entry → List Entry
  | [] => [e]
  | x :: l => if e.irqNo < x.irqNo then e :: x :: l else x :: insertEntry e l

/-- `tlkm_device_reg_int`: the table and what the call returns. -/
def tlkmDeviceRegInt (p : Platform) (c : Control) (peId fd : ℕ) : Option (Control × ℤ) :=
  if c.interrupts.any fun e => e.irqNo == peId then some (c, -efault)
  else
    (p.pirq c ⟨⟨peId, fd⟩, c.brk⟩).map fun bases =>
      (⟨insertEntry ⟨⟨peId, fd⟩, c.brk⟩ c.interrupts, bases, c.brk + 1⟩, 0)

/-- One round of the loop of `tlkm_control_release`. -/
def releaseEntry (p : Platform) (c : Control) (e : Entry) : Option Control :=
  (p.rirq c e).map fun bases =>
    { c with interrupts := c.interrupts.filter fun x => x.addr != e.addr, intcBases := bases }

/-- The loop of `tlkm_control_release` over the entries that are left. -/
def releaseLoop (p : Platform) : List Entry → Control → Option Control
  | [], c => some c
  | e :: l, c => (releaseEntry p c e).bind (releaseLoop p l)

/-- `tlkm_control_release`, as far as the interrupts are concerned. -/
def tlkmControlRelease (p : Platform) (c : Control) : Option Control :=
  releaseLoop p c.interrupts c

/-! ### Insertion into and removal from the sorted list -/

/-- The first entry of the list that belongs to controller `k`. -/
def firstOf (p : Platform) (k : ℕ) (l : List Entry) : Option Entry :=
  l.find? fun e => decide (p.Serves k e.irqNo)

/-- Entries sorted by number, no two with the same. -/
abbrev Ascending (l : List Entry) : Prop :=
  Cursor.Sorted (fun e : Entry => e.irqNo) l

section

variable {p : Platform} {k : ℕ} {l pre post : List Entry} {e x : Entry}

theorem controllerOf_mono {first m n : ℕ} (h : m ≤ n) :
    controllerOf first m ≤ controllerOf first n :=
  Nat.div_le_div_right (Nat.sub_le_sub_right h first)

theorem perm_insertEntry : (insertEntry e l).Perm (e :: l) := by
  fun_induction insertEntry e l with
  | case1 => exact .refl _
  | case2 y l h => exact .refl _
  | case3 y l h ih => exact (ih.cons y).trans (.swap e y l)

theorem mem_insertEntry : x ∈ insertEntry e l ↔ x = e ∨ x ∈ l := by
  rw [perm_insertEntry.mem_iff, mem_cons]

theorem ascending_insertEntry (hl : Ascending l) (he : ∀ x ∈ l, x.irqNo ≠ e.irqNo) :
    Ascending (insertEntry e l) := by
  fun_induction insertEntry e l with
  | case1 => exact pairwise_singleton _ _
  | case2 y l h =>
    refine pairwise_cons.mpr ⟨fun x hx => ?_, hl⟩
    rcases mem_cons.mp hx with rfl | hx
    · exact h
    · exact h.trans ((pairwise_cons.mp hl).1 x hx)
  | case3 y l h ih =>
    obtain ⟨hy, hl'⟩ := pairwise_cons.mp hl
    rw [forall_mem_cons] at he
    refine pairwise_cons.mpr ⟨fun x hx => ?_, ih hl' he.2⟩
    rcases mem_insertEntry.mp hx with rfl | hx
    · exact lt_of_le_of_ne (not_lt.mp h) he.1
    · exact hy x hx

theorem addrs_insertEntry (hl : (l.map Entry.addr).Nodup) (he : ∀ x ∈ l, x.addr ≠ e.addr) :
    ((insertEntry e l).map Entry.addr).Nodup := by
  rw [(perm_insertEntry.map _).nodup_iff, map_cons, nodup_cons]
  refine ⟨fun hm => ?_, hl⟩
  obtain ⟨x, hx, hxe⟩ := mem_map.mp hm
  exact he x hx hxe

theorem firstOf_eq_none : firstOf p k l = none ↔ ∀ x ∈ l, ¬ p.Serves k x.irqNo := by
  simp [firstOf]

theorem firstOf_mem (h : firstOf p k l = some x) : x ∈ l ∧ p.Serves k x.irqNo := by
  have hs := find?_some h
  exact ⟨mem_of_find?_eq_some h, of_decide_eq_true hs⟩

theorem irqNo_le_of_firstOf (hl : Ascending l) (h : firstOf p k l = some x) {y : Entry}
    (hy : y ∈ l) (hs : p.Serves k y.irqNo) : x.irqNo ≤ y.irqNo := by
  obtain ⟨-, pre, post, rfl, hp⟩ := find?_eq_some_iff_append.mp h
  rcases mem_append.mp hy with hy | hy
  · exact absurd hs (by simpa using hp y hy)
  · rcases mem_cons.mp hy with rfl | hy
    · exact le_rfl
    · exact le_of_lt ((pairwise_cons.mp (pairwise_append.mp hl).2.1).1 y hy)

theorem firstOf_insertEntry_of_not (he : ¬ p.Serves k e.irqNo) :
    firstOf p k (insertEntry e l) = firstOf p k l := by
  fun_induction insertEntry e l with
  | case1 => simp [firstOf, he]
  | case2 y l h => rw [firstOf, find?_cons_of_neg (by simpa using he), firstOf]
  | case3 y l h ih =>
    by_cases hy : p.Serves k y.irqNo
    · simp [firstOf, hy]
    · simpa [firstOf, hy] using ih

theorem firstOf_insertEntry_of (hl : Ascending l) (he : p.Serves k e.irqNo) :
    firstOf p k (insertEntry e l) =
      match firstOf p k l with
      | none => some e | some x => if e.irqNo < x.irqNo then some e else some x := by
  induction l with
  | nil => simp [insertEntry, firstOf, he]
  | cons y l ih =>
    obtain ⟨hy, hl'⟩ := pairwise_cons.mp hl
    rw [insertEntry]
    by_cases hs : p.Serves k y.irqNo
    · have hf : firstOf p k (y :: l) = some y := by simp [firstOf, hs]
      rw [hf]
      by_cases h : e.irqNo < y.irqNo
      · simp [h, firstOf, he]
      · simp [h, firstOf, hs]
    have hf : firstOf p k (y :: l) = firstOf p k l := by simp [firstOf, hs]
    rw [hf]
    by_cases h : e.irqNo < y.irqNo
    · -- the entry goes to the front, below everything that follows
      rw [if_pos h]
      have hfr : firstOf p k (e :: y :: l) = some e := by simp [firstOf, he]
      rw [hfr]
      cases hx : firstOf p k l with
      | none => rfl
      | some x => exact (if_pos (h.trans (hy x (firstOf_mem hx).1))).symm
    · rw [if_neg h, ← ih hl']
      simp [firstOf, hs]

theorem firstOf_remove_of_not (he : ¬ p.Serves k e.irqNo) :
    firstOf p k (pre ++ post) = firstOf p k (pre ++ e :: post) := by
  simp [firstOf, find?_append, he]

/-- Where the first entry of its controller is removed, the next entry of the list takes
its place if it belongs to the same controller, and otherwise nothing does. -/
theorem firstOf_remove_first (hl : Ascending (pre ++ e :: post)) (he : p.Serves k e.irqNo)
    (hf : firstOf p k (pre ++ e :: post) = some e) :
    firstOf p k (pre ++ post) =
      match post.head? with
      | none => none
      | some next => if controllerOf p.first next.irqNo = k then some next else none := by
  obtain ⟨-, hep, hc⟩ := pairwise_append.mp hl
  obtain ⟨hlt, hpo⟩ := pairwise_cons.mp hep
  have hp : firstOf p k pre = none := by
    rw [firstOf_eq_none]
    intro x hx hs
    have hle := irqNo_le_of_firstOf hl hf (mem_append_left _ hx) hs
    have hlt : x.irqNo < e.irqNo := hc x hx e mem_cons_self
    omega
  have hsp : firstOf p k (pre ++ post) = firstOf p k post := by
    rw [firstOf, find?_append, ← firstOf, hp]
    rfl
  rw [hsp]
  cases post with
  | nil => rfl
  | cons next post =>
    have hn : e.irqNo < next.irqNo := hlt next mem_cons_self
    by_cases hk : controllerOf p.first next.irqNo = k
    · have hs : p.Serves k next.irqNo := ⟨he.1.trans (le_of_lt hn), hk⟩
      simp [firstOf, hs, hk]
    -- the numbers that follow belong to later controllers
    simp only [head?_cons, if_neg hk]
    rw [firstOf_eq_none]
    intro x hx hs
    have h₁ : controllerOf p.first e.irqNo ≤ controllerOf p.first next.irqNo :=
      controllerOf_mono (le_of_lt hn)
    have h₂ : controllerOf p.first next.irqNo ≤ controllerOf p.first x.irqNo := by
      rcases mem_cons.mp hx with rfl | hx
      · exact le_rfl
      · exact controllerOf_mono (le_of_lt ((pairwise_cons.mp hpo).1 x hx))
    have h₃ := hs.2
    have h₄ := he.2
    omega

theorem firstOf_remove_other (hf : firstOf p k (pre ++ e :: post) = some x)
    (hne : x ≠ e) : firstOf p k (pre ++ post) = some x := by
  rw [firstOf, find?_append] at hf ⊢
  cases hp : pre.find? fun e => decide (p.Serves k e.irqNo) with
  | some y => rwa [hp] at hf
  | none =>
    rw [hp, Option.none_or] at hf
    rw [Option.none_or]
    rw [find?_cons] at hf
    split at hf
    · exact absurd (Option.some.inj hf).symm hne
    · exact hf

end

/-! ### Pointers into the list -/

section

variable {l pre post : List Entry} {e : Entry}

theorem addr_ne_of_nodup (h : ((pre ++ e :: post).map Entry.addr).Nodup) {x : Entry}
    (hx : x ∈ pre ∨ x ∈ post) : x.addr ≠ e.addr := by
  rw [map_append, map_cons, nodup_append, nodup_cons] at h
  obtain ⟨-, ⟨hp, -⟩, hc⟩ := h
  rcases hx with hx | hx
  · exact hc _ (mem_map_of_mem hx) _ mem_cons_self
  · exact fun heq => hp (heq ▸ mem_map_of_mem hx)

theorem filter_addr_eq (h : ((pre ++ e :: post).map Entry.addr).Nodup) :
    (pre ++ e :: post).filter (fun x => x.addr != e.addr) = pre ++ post :=
  filter_append_cons (fun x hx => by simpa using addr_ne_of_nodup h (.inl hx)) (by simp)
    fun x hx => by simpa using addr_ne_of_nodup h (.inr hx)

theorem nextAt_eq (h : ((pre ++ e :: post).map Entry.addr).Nodup) :
    nextAt (pre ++ e :: post) e.addr = some post.head? := by
  rw [nextAt, findSplit_append_cons (fun x hx => by simpa using addr_ne_of_nodup h (.inl hx))
    (by simp), map_some]

theorem irqNoAt_eq (h : (l.map Entry.addr).Nodup) (he : e ∈ l) :
    irqNoAt l e.addr = some e.irqNo := by
  obtain ⟨pre, post, rfl⟩ := append_of_mem he
  have hf : (pre ++ e :: post).find? (fun x => x.addr == e.addr) = some e := by
    rw [find?_eq_some_iff_append]
    refine ⟨by simp, pre, post, rfl, fun x hx => ?_⟩
    simpa using addr_ne_of_nodup h (.inl hx)
  rw [irqNoAt, hf, map_some]

end

/-! ### The invariant -/

/-- The list is sorted, its entries stand at different allocated addresses and belong to
controllers that exist, and each cached pointer is the first entry of its controller. -/
structure Inv (p : Platform) (present : List Bool) (c : Control) : Prop where
  ascending : Ascending c.interrupts
  allocated : ∀ e ∈ c.interrupts, e.addr < c.brk
  addrs : (c.interrupts.map Entry.addr).Nodup
  belongs : ∀ e ∈ c.interrupts, p.Belongs present e.irqNo
  cached : ∀ k : ℕ, c.intcBases[k]? =
    present[k]?.map fun b => ⟨(firstOf p k c.interrupts).map Entry.addr, b⟩

theorem inv_new (p : Platform) (present : List Bool) : Inv p present (Control.new present) where
  ascending := List.Pairwise.nil
  allocated := by simp [Control.new]
  addrs := nodup_nil
  belongs := by simp [Control.new]
  cached k := by simp [Control.new, firstOf]

section

variable {p : Platform} {present : List Bool} {c : Control} {e : Entry}

theorem updateBase_cached (h : Inv p present c) {k : ℕ} {l : List Entry} {b : Bool}
    (hk : present[k]? = some b) {f : IntcBase → Option IntcBase}
    (hf : f ⟨(firstOf p k c.interrupts).map Entry.addr, b⟩ =
      some ⟨(firstOf p k l).map Entry.addr, b⟩)
    (ho : ∀ j, j ≠ k → firstOf p j l = firstOf p j c.interrupts) :
    ∃ bases, updateBase c.intcBases k f = some bases ∧ ∀ j : ℕ, bases[j]? =
      present[j]?.map fun b => ⟨(firstOf p j l).map Entry.addr, b⟩ := by
  have hb := h.cached k
  rw [hk, map_some] at hb
  refine ⟨_, by rw [updateBase, hb]; simp only [hf]; rfl, fun j => ?_⟩
  rw [getElem?_set]
  by_cases hj : k = j
  · subst hj
    obtain ⟨hlt, -⟩ := List.getElem?_eq_some_iff.mp hb
    rw [if_pos rfl, if_pos hlt, hk, map_some]
  · rw [if_neg hj, h.cached j, ho j (Ne.symm hj)]

theorem not_serves_of_lt {k : ℕ} (he : e.irqNo < p.first) : ¬ p.Serves k e.irqNo :=
  fun h => absurd h.1 (not_le.mpr he)

/-- Requesting an interrupt brings the cached pointers in line with the list that will
have the new entry. -/
theorem requestPlatformIrq_cached (h : Inv p present c) (he : p.Belongs present e.irqNo) :
    ∃ bases, requestPlatformIrq p.first c e = some bases ∧ ∀ k : ℕ, bases[k]? =
      present[k]?.map fun b => ⟨(firstOf p k (insertEntry e c.interrupts)).map Entry.addr, b⟩ := by
  rw [requestPlatformIrq]
  by_cases hd : e.irqNo < p.first
  · refine ⟨_, if_pos hd, fun k => ?_⟩
    rw [firstOf_insertEntry_of_not (not_serves_of_lt hd), h.cached k]
  rw [if_neg hd]
  have hs : p.Serves (controllerOf p.first e.irqNo) e.irqNo :=
    ⟨not_lt.mp hd, rfl⟩
  refine updateBase_cached h (he.resolve_left hd) ?_ fun j hj =>
    firstOf_insertEntry_of_not fun hs' => hj hs'.2.symm
  rw [firstOf_insertEntry_of h.ascending hs, addMapping]
  cases hf : firstOf p (controllerOf p.first e.irqNo) c.interrupts with
  | none => rfl
  | some x =>
    simp only [map_some, irqNoAt_eq h.addrs (firstOf_mem hf).1]
    by_cases hlt : e.irqNo < x.irqNo
    · simp only [if_pos hlt, map_some]
    · simp only [if_neg hlt, map_some]

/-- Releasing an interrupt brings the cached pointers in line with the list without the
entry. -/
theorem releasePlatformIrq_cached (h : Inv p present c) {pre post : List Entry}
    (hs : c.interrupts = pre ++ e :: post) :
    ∃ bases, releasePlatformIrq p.first c e = some bases ∧ ∀ k : ℕ, bases[k]? =
      present[k]?.map fun b => ⟨(firstOf p k (pre ++ post)).map Entry.addr, b⟩ := by
  have hm : e ∈ c.interrupts := hs ▸ mem_append_right _ mem_cons_self
  have ha := h.ascending
  have had := h.addrs
  rw [hs] at ha had
  rw [releasePlatformIrq]
  by_cases hd : e.irqNo < p.first
  · refine ⟨_, if_pos hd, fun k => ?_⟩
    rw [firstOf_remove_of_not (not_serves_of_lt hd), h.cached k, hs]
  rw [if_neg hd]
  have hse : p.Serves (controllerOf p.first e.irqNo) e.irqNo :=
    ⟨not_lt.mp hd, rfl⟩
  refine updateBase_cached h ((h.belongs e hm).resolve_left hd) ?_ fun j hj => ?_
  · cases hf : firstOf p (controllerOf p.first e.irqNo) c.interrupts with
    | none => exact absurd hse (firstOf_eq_none.mp hf e hm)
    | some x =>
      have hx := (firstOf_mem hf).1
      simp only [dropMapping, map_some, irqNoAt_eq h.addrs hx]
      by_cases heq : x.irqNo = e.irqNo
      · obtain rfl := h.ascending.eq_of_key_eq hx hm heq
        rw [hs] at hf
        rw [if_pos rfl, hs, nextAt_eq had, firstOf_remove_first ha hse hf]
        cases post.head? with
        | none => rfl
        | some next =>
          by_cases hk : controllerOf p.first next.irqNo = controllerOf p.first x.irqNo
          · simp only [if_pos hk, map_some]
          · simp only [if_neg hk, Option.map_none]
      · rw [hs] at hf
        rw [if_neg heq, firstOf_remove_other hf fun hxe => heq (by rw [hxe]), map_some]
  · rw [hs]
    exact firstOf_remove_of_not fun hs' => hj hs'.2.symm

/-- **Registration** is defined, keeps the invariant, and enters the number unless it is
taken. -/
theorem regInt_inv (h : Inv p present c) {peId : ℕ} (hp : p.Belongs present peId) (fd : ℕ) :
    ∃ c' r, tlkmDeviceRegInt p c peId fd = some (c', r) ∧ Inv p present c' ∧
      ((∃ e ∈ c.interrupts, e.irqNo = peId) ∧ c' = c ∧ r = -efault ∨
        (∀ e ∈ c.interrupts, e.irqNo ≠ peId) ∧ r = 0 ∧
          ∀ m, m ∈ c'.interrupts.map Entry.toIrqMapping ↔
            m = ⟨peId, fd⟩ ∨ m ∈ c.interrupts.map Entry.toIrqMapping) := by
  rw [tlkmDeviceRegInt]
  by_cases ht : ∃ e ∈ c.interrupts, e.irqNo = peId
  · have ha : c.interrupts.any (fun e => e.irqNo == peId) = true := by simpa using ht
    exact ⟨c, -efault, if_pos ha, h, .inl ⟨ht, rfl, rfl⟩⟩
  have ha : ¬ c.interrupts.any (fun e => e.irqNo == peId) = true := by
    simpa using ht
  have hn : ∀ e ∈ c.interrupts, e.irqNo ≠ peId := by simpa using ht
  obtain ⟨bases, hr, hb⟩ := requestPlatformIrq_cached (e := ⟨⟨peId, fd⟩, c.brk⟩) h hp
  rw [if_neg ha, p.pirq_eq, hr, map_some]
  refine ⟨_, _, rfl, ⟨?_, ?_, ?_, ?_, hb⟩, .inr ⟨hn, rfl, fun m => ?_⟩⟩
  · exact ascending_insertEntry h.ascending hn
  · intro e he
    rcases mem_insertEntry.mp he with rfl | he
    · exact Nat.lt_succ_self _
    · exact (h.allocated e he).trans (Nat.lt_succ_self _)
  · exact addrs_insertEntry h.addrs fun e he => ne_of_lt (h.allocated e he)
  · intro e he
    rcases mem_insertEntry.mp he with rfl | he
    · exact hp
    · exact h.belongs e he
  · simp only [mem_map, mem_insertEntry]
    constructor
    · rintro ⟨e, rfl | he, rfl⟩
      · exact .inl rfl
      · exact .inr ⟨e, he, rfl⟩
    · rintro (rfl | ⟨e, he, rfl⟩)
      · exact ⟨_, .inl rfl, rfl⟩
      · exact ⟨e, .inr he, rfl⟩

/-- **The release of one entry** is defined, keeps the invariant and takes exactly that
entry off the list. -/
theorem releaseEntry_inv (h : Inv p present c) {pre post : List Entry}
    (hsp : c.interrupts = pre ++ e :: post) :
    ∃ c', releaseEntry p c e = some c' ∧ Inv p present c' ∧ c'.interrupts = pre ++ post := by
  obtain ⟨bases, hr, hb⟩ := releasePlatformIrq_cached h hsp
  have ha := h.addrs
  rw [hsp] at ha
  have hf := filter_addr_eq ha
  rw [releaseEntry, p.rirq_eq, hr, map_some, hsp, hf]
  have hs : (pre ++ post).Sublist (pre ++ e :: post) :=
    (List.Sublist.refl pre).append (sublist_cons_self e post)
  have hm : ∀ x ∈ pre ++ post, x ∈ c.interrupts := fun x hx => hsp ▸ hs.subset hx
  refine ⟨_, rfl, ⟨?_, ?_, ?_, ?_, hb⟩, rfl⟩
  · exact (hsp ▸ h.ascending).sublist hs
  · exact fun x hx => h.allocated x (hm x hx)
  · exact ha.sublist (hs.map Entry.addr)
  · exact fun x hx => h.belongs x (hm x hx)

theorem controlRelease_inv (h : Inv p present c) :
    ∃ c', tlkmControlRelease p c = some c' ∧ Inv p present c' ∧ c'.interrupts = [] := by
  rw [tlkmControlRelease]
  generalize hl : c.interrupts = l
  -- the entries the loop still has to visit are those on the list
  induction l generalizing c with
  | nil => exact ⟨c, rfl, h, hl⟩
  | cons e l ih =>
    obtain ⟨c', hr, hi, hre⟩ := releaseEntry_inv h (hl.trans (nil_append _).symm)
    obtain ⟨c'', hlo, hi', he⟩ := ih hi hre
    exact ⟨c'', by rw [releaseLoop, hr, bind_some, hlo], hi', he⟩

end

/-! ### Runs of registrations and releases -/

/-- A registration, the release of one registered number, and the release of all when the device
file is closed. -/
inductive Action where
  | register (peId fd : ℕ)
  | release (irqNo : ℕ)
  | close

/-- The effect of an action, `none` once something undefined has happened. -/
def tableStep (p : Platform) (s : Option Control) : Action → Option Control
  | .register peId fd => s.bind fun c => (tlkmDeviceRegInt p c peId fd).map Prod.fst
  | .release irqNo =>
    s.bind fun c =>
      match c.interrupts.find? fun e => e.irqNo == irqNo with
      | none => some c
      | some e => releaseEntry p c e
  | .close => s.bind (tlkmControlRelease p)

/-- The eventfds that are registered and not yet released: what the table stands for. -/
abbrev Registry : Type :=
  ℕ → Option ℕ

/-- A number that is taken is not registered again. -/
def registryStep (r : Registry) : Action → Registry
  | .register peId fd => if r peId = none then Function.update r peId (some fd) else r
  | .release irqNo => Function.update r irqNo none
  | .close => fun _ => none

/-- The table next to the registry. -/
def step (p : Platform) (s : Option Control × Registry) (a : Action) : Option Control × Registry :=
  (tableStep p s.1 a, registryStep s.2 a)

/-- The numbers that are registered belong to controllers that exist. -/
def Admissible (p : Platform) (present : List Bool) : Action → Prop
  | .register peId _ => p.Belongs present peId
  | .release _ => True
  | .close => True

instance (p : Platform) (present : List Bool) : DecidablePred (Admissible p present)
  | .register peId _ => inferInstanceAs (Decidable (p.Belongs present peId))
  | .release _ => inferInstanceAs (Decidable True)
  | .close => inferInstanceAs (Decidable True)

/-- The list holds exactly the registered interrupts. -/
def Holds (c : Control) (r : Registry) : Prop :=
  ∀ m : IrqMapping, m ∈ c.interrupts.map Entry.toIrqMapping ↔ r m.irqNo = some m.eventfd

/-- What the table has to satisfy: the list is strictly sorted and holds exactly the registered
interrupts, and the cached pointer of a controller is its entry with the smallest number, or null.
-/
structure Table (p : Platform) (c : Control) (r : Registry) : Prop where
  sorted : c.interrupts.Pairwise fun x y => x.irqNo < y.irqNo
  holds : Holds c r
  cached : ∀ (k : ℕ) (b : IntcBase), c.intcBases[k]? = some b →
    (∀ a, b.mapping = some a ↔ ∃ e ∈ c.interrupts, e.addr = a ∧ p.Serves k e.irqNo ∧
      ∀ x ∈ c.interrupts, p.Serves k x.irqNo → e.irqNo ≤ x.irqNo) ∧
    (b.mapping = none ↔ ∀ e ∈ c.interrupts, ¬ p.Serves k e.irqNo)

section

variable {p : Platform} {present : List Bool} {c : Control} {r : Registry}

theorem Inv.table (h : Inv p present c) (hr : Holds c r) : Table p c r where
  sorted := h.ascending
  holds := hr
  cached k b hb := by
    rw [h.cached k] at hb
    obtain ⟨_, -, rfl⟩ := Option.map_eq_some_iff.mp hb
    refine ⟨fun a => ?_, by rw [Option.map_eq_none_iff, firstOf_eq_none]⟩
    rw [Option.map_eq_some_iff]
    constructor
    · rintro ⟨e, hf, rfl⟩
      obtain ⟨he, hs⟩ := firstOf_mem hf
      exact ⟨e, he, rfl, hs, fun x hx => irqNo_le_of_firstOf h.ascending hf hx⟩
    · rintro ⟨e, he, rfl, hs, hl⟩
      obtain ⟨x, hf⟩ : ∃ x, firstOf p k c.interrupts = some x := by
        rw [← Option.ne_none_iff_exists']
        exact fun hn => firstOf_eq_none.mp hn e he hs
      obtain ⟨hx, hxs⟩ := firstOf_mem hf
      have hle := irqNo_le_of_firstOf h.ascending hf he hs
      obtain rfl := h.ascending.eq_of_key_eq hx he (le_antisymm hle (hl x hx hxs))
      exact ⟨x, hf, rfl⟩

theorem Inv.length_intcBases (h : Inv p present c) : c.intcBases.length = present.length := by
  refine le_antisymm ?_ ?_
  · have hk := h.cached present.length
    rw [getElem?_eq_none le_rfl, Option.map_none, List.getElem?_eq_none_iff] at hk
    exact hk
  · have hk := h.cached c.intcBases.length
    rw [getElem?_eq_none le_rfl, eq_comm, Option.map_eq_none_iff, List.getElem?_eq_none_iff] at hk
    exact hk

theorem Holds.eq_none (hr : Holds c r) {n : ℕ} (hn : ∀ e ∈ c.interrupts, e.irqNo ≠ n) :
    r n = none := by
  cases hrn : r n with
  | none => rfl
  | some fd =>
    obtain ⟨e, he, hem⟩ := mem_map.mp ((hr ⟨n, fd⟩).mpr hrn)
    exact absurd (congrArg IrqMapping.irqNo hem) (hn e he)

theorem Holds.eq_some (hr : Holds c r) {e : Entry} (he : e ∈ c.interrupts) :
    r e.irqNo = some e.eventfd :=
  (hr e.toIrqMapping).mp (mem_map_of_mem he)

/-- A defined table that meets the invariant and holds what is registered. -/
def Represents (p : Platform) (present : List Bool) (s : Option Control × Registry) : Prop :=
  ∃ c, s.1 = some c ∧ Inv p present c ∧ Holds c s.2

theorem Holds.register {c' : Control} (hr : Holds c r) {peId fd : ℕ}
    (hn : ∀ e ∈ c.interrupts, e.irqNo ≠ peId) (hme : ∀ m, m ∈ c'.interrupts.map Entry.toIrqMapping ↔
      m = ⟨peId, fd⟩ ∨ m ∈ c.interrupts.map Entry.toIrqMapping) :
    Holds c' (update r peId (some fd)) := by
  intro m
  rw [hme m, hr m]
  by_cases hm : m.irqNo = peId
  · subst hm
    rw [update_self, hr.eq_none hn, Option.some.injEq]
    cases m
    simp [eq_comm]
  · rw [update_of_ne hm]
    refine or_iff_right ?_
    rintro rfl
    exact hm rfl

theorem Holds.release (h : Inv p present c) {c' : Control} (hr : Holds c r)
    {pre post : List Entry} {e : Entry} (hs : c.interrupts = pre ++ e :: post)
    (hre : c'.interrupts = pre ++ post) : Holds c' (update r e.irqNo none) := by
  intro m
  have ho := hr m
  have ha := h.ascending
  rw [hs, map_append, map_cons, mem_append, mem_cons] at ho
  rw [hs] at ha
  obtain ⟨-, he, hc⟩ := pairwise_append.mp ha
  rw [hre, map_append, mem_append]
  by_cases hm : m.irqNo = e.irqNo
  · rw [hm, update_self]
    refine iff_of_false ?_ (by simp)
    rintro (hme | hme) <;> obtain ⟨x, hx, rfl⟩ := mem_map.mp hme
    · exact absurd hm (ne_of_lt (hc x hx e mem_cons_self))
    · exact absurd hm (ne_of_gt ((pairwise_cons.mp he).1 x hx))
  · rw [update_of_ne hm, ← ho]
    refine or_congr_right (or_iff_right ?_).symm
    rintro rfl
    exact hm rfl

/-- **Every action** on a table that meets the invariant is defined, keeps it, and changes
the list as the registry. -/
theorem step_inv (h : Inv p present c) (hr : Holds c r) {a : Action} (ha : Admissible p present a) :
    ∃ c', tableStep p (some c) a = some c' ∧ Inv p present c' ∧ Holds c' (registryStep r a) := by
  cases a with
  | register peId fd =>
    obtain ⟨c', q, hreg, hi, hc⟩ := regInt_inv h ha fd
    refine ⟨c', by rw [tableStep, bind_some, hreg, map_some], hi, ?_⟩
    rw [registryStep]
    rcases hc with ⟨⟨e, he, rfl⟩, rfl, -⟩ | ⟨hn, -, hm⟩
    · rwa [if_neg (by rw [hr.eq_some he]; exact Option.some_ne_none _)]
    · rw [if_pos (hr.eq_none hn)]
      exact hr.register hn hm
  | release irqNo =>
    rw [tableStep, bind_some, registryStep]
    cases hf : c.interrupts.find? fun e => e.irqNo == irqNo with
    | none =>
      have hnon : r irqNo = none := hr.eq_none (by simpa using hf)
      rw [← hnon, update_eq_self]
      exact ⟨c, rfl, h, hr⟩
    | some e =>
      have hno := find?_some hf
      obtain rfl : e.irqNo = irqNo := by simpa using hno
      obtain ⟨pre, post, hs⟩ := append_of_mem (mem_of_find?_eq_some hf)
      obtain ⟨c', hrel, hi, hre⟩ := releaseEntry_inv h hs
      exact ⟨c', hrel, hi, hr.release h hs hre⟩
  | close =>
    obtain ⟨c', hrel, hi, hem⟩ := controlRelease_inv h
    exact ⟨c', hrel, hi, fun m => by rw [hem]; simp [registryStep]⟩

/-- The table represents the registry in all runs. -/
theorem represents_of_mem_trace {as : List Action} (has : ∀ a ∈ as, Admissible p present a) :
    ∀ s ∈ Runs.trace (step p) (some (Control.new present), fun _ => none) as,
      Represents p present s := by
  refine Runs.forall_mem_trace_of ?_ ?_ (Runs.allSteps_of_forall_mem _ has)
  · rintro s a ⟨c, hc, hinv, hr⟩ ha
    obtain ⟨c', hc', hinv', hr'⟩ := step_inv hinv hr ha
    exact ⟨c', by rw [step, hc, hc'], hinv', hr'⟩
  · exact ⟨_, rfl, inv_new p present, fun m => by simp [Control.new]⟩

end

/-- **The interrupt table**: whatever interrupts of existing controllers are registered and
released, in any order, the list is strictly sorted and holds exactly those registered, and each
cached pointer is the entry with the smallest number of its controller, or null exactly if there is
none. -/
theorem table_of_mem_trace (p : Platform) (present : List Bool) (as : List Action)
    (has : ∀ a ∈ as, Admissible p present a) :
    ∀ s ∈ Runs.trace (step p) (some (Control.new present), fun _ => none) as,
      ∃ c, s.1 = some c ∧ c.intcBases.length = present.length ∧ Table p c s.2 := by
  intro s hs
  obtain ⟨c, hc, hinv, hr⟩ := represents_of_mem_trace has s hs
  exact ⟨c, hc, hinv.length_intcBases, hinv.table hr⟩

/-- A smaller number is registered after a greater one, and then the smallest one of the first
controller is released. -/
theorem table_of_mem_trace_aws :
    ∃ s ∈ Runs.trace (step .aws) (some (Control.new [true, true]), fun _ => none)
        [.register 40 1, .register 9 2, .register 5 3, .register 2 4, .release 5],
      ∃ c, s.1 = some c ∧ c.intcBases.length = 2 ∧ Table .aws c s.2 :=
  ⟨_, Runs.run_mem_trace _ _, table_of_mem_trace .aws [true, true]
    [.register 40 1, .register 9 2, .register 5 3, .register 2 4, .release 5]
    (by decide) _ (Runs.run_mem_trace _ _)⟩

/-! ### What the handlers walk -/

/-- The list from the cached pointer of a controller on, as its handler walks it. -/
def mappingFrom (c : Control) (k : ℕ) : List IrqMapping :=
  match c.intcBases[k]? with
  | some ⟨some a, _⟩ =>
    (c.interrupts.dropWhile fun e => e.addr != a).map Entry.toIrqMapping
  | _ => []

theorem serves_iff {p : Platform} {k n : ℕ} :
    p.Serves k n ↔
      k * irqsPerController + p.first ≤ n ∧
        n < k * irqsPerController + p.first + irqsPerController := by
  rw [Platform.Serves, controllerOf, irqsPerController]
  omega

theorem dropWhile_firstOf {p : Platform} {k : ℕ} {l : List Entry} (hl : Ascending l)
    (ha : (l.map Entry.addr).Nodup) :
    (match firstOf p k l with
      | some x => (l.dropWhile fun e => e.addr != x.addr).map Entry.toIrqMapping
      | none => []) =
      cachedMapping (l.map Entry.toIrqMapping) (k * irqsPerController + p.first) := by
  induction l with
  | nil => rfl
  | cons y l ih =>
    obtain ⟨hy, hl'⟩ := pairwise_cons.mp hl
    rw [map_cons, nodup_cons] at ha
    by_cases hs : p.Serves k y.irqNo
    · obtain ⟨hle, hlt⟩ := serves_iff.mp hs
      have hf : firstOf p k (y :: l) = some y := by simp [firstOf, hs]
      have hge : ¬ y.irqNo < k * irqsPerController + p.first := not_lt.mpr hle
      simp [hf, cachedMapping, hge, hlt]
    have hf : firstOf p k (y :: l) = firstOf p k l := by simp [firstOf, hs]
    rw [hf]
    by_cases hlo : y.irqNo < k * irqsPerController + p.first
    · have hd : cachedMapping ((y :: l).map Entry.toIrqMapping)
          (k * irqsPerController + p.first) =
          cachedMapping (l.map Entry.toIrqMapping) (k * irqsPerController + p.first) := by
        simp [cachedMapping, hlo]
      rw [hd, ← ih hl' ha.2]
      cases hx : firstOf p k l with
      | none => rfl
      | some x =>
        have hne : y.addr ≠ x.addr := fun heq =>
          ha.1 (heq ▸ mem_map_of_mem (firstOf_mem hx).1)
        simp [hne]
    · -- the first number past the controller's first one belongs to a later controller
      have hh : ¬ y.irqNo < k * irqsPerController + p.first + irqsPerController :=
        fun hlt => hs (serves_iff.mpr ⟨not_lt.mp hlo, hlt⟩)
      have hn : firstOf p k l = none := by
        rw [firstOf_eq_none]
        intro x hx hxs
        have hlt : y.irqNo < x.irqNo := hy x hx
        have := (serves_iff.mp hxs).2
        omega
      simp [hn, cachedMapping, hlo, hh]

/-- **The handler's list**: in a table that meets the invariant, following the cached
pointer of a controller gives the list from the smallest registered number of the
controller on. -/
theorem mappingFrom_eq_cachedMapping {p : Platform} {present : List Bool} {c : Control}
    (h : Inv p present c) {k : ℕ} (hk : k < present.length) :
    mappingFrom c k =
      cachedMapping (c.interrupts.map Entry.toIrqMapping) (k * irqsPerController + p.first) := by
  rw [← dropWhile_firstOf h.ascending h.addrs, mappingFrom, h.cached k,
    getElem?_eq_getElem hk, map_some]
  cases firstOf p k c.interrupts with
  | none => rfl
  | some x => rfl

/-- **From registration to signal**: after any registrations and releases, the handler of a
controller of an AWS device signals the eventfd that is registered for an interrupt once for each
word with its bit, and no others, if and only if the words come in order. -/
theorem delivered_iff_of_mem_trace (present : List Bool) {as : List Action}
    (has : ∀ a ∈ as, Admissible .aws present a) :
    ∀ s ∈ Runs.trace (step .aws) (some (Control.new present), fun _ => none) as,
      ∃ c, s.1 = some c ∧ ∀ k < present.length, ∀ reads,
        let start := k * irqsPerController + numDirectIrqs
        ((∃ v, awsIrqHandler ⟨start, mappingFrom c k⟩ reads = .ok v ∧ ∀ m, v.signalled.count m =
            if s.2 m.irqNo = some m.eventfd then (statusWords reads).countP (pending start · m)
            else 0) ↔
          InOrder (c.interrupts.map Entry.toIrqMapping) start reads) := by
  intro s hs
  obtain ⟨c, hc, hinv, hr⟩ := represents_of_mem_trace has s hs
  refine ⟨c, hc, fun k hk reads => ?_⟩
  have hex := @irqHandler_exact_iff _ (k * irqsPerController + numDirectIrqs)
    (pairwise_map.mpr hinv.ascending) id (fun _ _ => rfl) false reads
  simp only [SignalsExactly, hr _] at hex
  rw [mappingFrom_eq_cachedMapping hinv hk]
  exact hex

/-- Two interrupts are registered and one is released; then both become pending. -/
theorem delivered_iff_of_mem_trace_released :
    ∃ s ∈ Runs.trace (step .aws) (some (Control.new [true]), fun _ => none)
        [.register 9 2, .register 5 3, .release 5],
      ∃ c, s.1 = some c ∧ ∃ v, awsIrqHandler ⟨4, mappingFrom c 0⟩ [0x22#32] = .ok v ∧
        v.signalled.count ⟨9, 2⟩ = 1 := by
  obtain ⟨c, hc, h⟩ := delivered_iff_of_mem_trace [true] (by decide) _ (Runs.run_mem_trace _
    [.register 9 2, .register 5 3, .release 5])
  obtain ⟨v, hv, hcount⟩ := (h 0 (by decide) [0x22#32]).mpr (by simp [InOrder, statusWords])
  exact ⟨_, Runs.run_mem_trace _ _, c, hc, v, hv, (hcount ⟨9, 2⟩).trans (by decide)⟩

end Tapasco.Irq
