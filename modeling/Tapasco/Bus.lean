import Tapasco.Lib.Lists
import Tapasco.Lib.Runs
import Mathlib.Data.List.Range

/-!
# The Bus of the Kernel Module

The bus keeps the devices in a circular list. `tlkm_bus_add_device` appends a device and gives it
the number of devices as its id; `tlkm_bus_del_device` unlinks a device and counts down.
`tlkm_bus_get_device` does not look at ids: it takes as many steps from the first device as the
index says. The walk here is that of the source, over the ring of the list head and the devices.

The walk stops early only where `list_empty` holds of the node it stands on, and in a ring
with a device in it that is never so. An index past the last device therefore leads to the
list head, which is then taken for a device, or once around to a device again.
-/

open Lists List

namespace Tapasco

structure Device where
  addr : ℕ
  devId : ℕ
  deriving DecidableEq

/-- `_tlkm_bus`, and the address the next allocation returns. -/
structure Bus where
  devices : List Device
  numDevs : ℕ
  brk : ℕ

namespace Bus

variable {d : Device}

def new : Bus :=
  ⟨[], 0, 0⟩

/-- `tlkm_bus_add_device` of a newly allocated device. -/
def addDevice (b : Bus) : Bus :=
  ⟨b.devices ++ [⟨b.brk, b.numDevs⟩], b.numDevs + 1, b.brk + 1⟩

/-- `tlkm_bus_del_device`. -/
def delDevice (b : Bus) (addr : ℕ) : Bus :=
  { b with devices := b.devices.filter (fun d => d.addr != addr), numDevs := b.numDevs - 1 }

/-! ### The walk along the ring -/

/-- `lh->next` in a ring of the head, at position zero, and `n` devices. -/
def next (n pos : ℕ) : ℕ :=
  if pos = n then 0 else pos + 1

/-- `list_empty`, of any node of the ring. -/
def listEmpty (n pos : ℕ) : Bool :=
  next n pos == pos

/-- The loop of `tlkm_bus_get_device`. -/
def walk (n : ℕ) : ℕ → ℕ → ℕ
  | 0, pos => pos
  | idx + 1, pos => if listEmpty n pos then pos else walk n idx (next n pos)

/-- What a lookup returns: null, a device, or the list head taken for a device. -/
inductive Lookup where
  | null
  | device (d : Device)
  | listHead
  deriving DecidableEq

/-- `container_of` for the node at a position. -/
def containerOf (b : Bus) : ℕ → Lookup
  | 0 => .listHead
  | pos + 1 => (b.devices[pos]?).elim .null .device

/-- `tlkm_bus_get_device`. -/
def getDevice (b : Bus) (idx : ℕ) : Lookup :=
  let lh := walk b.devices.length idx (next b.devices.length 0)
  if listEmpty b.devices.length lh then .null else b.containerOf lh

theorem listEmpty_eq_true_iff {n pos : ℕ} (h : pos ≤ n) : listEmpty n pos = true ↔ n = 0 := by
  rw [listEmpty, next, beq_iff_eq]
  split <;> omega

theorem next_le {n pos : ℕ} (h : pos ≤ n) : next n pos ≤ n := by
  rw [next]
  split <;> omega

/-- **Where the walk ends**: it goes round the ring. -/
theorem walk_eq {n : ℕ} (hn : 0 < n) {pos : ℕ} (hp : pos ≤ n) (idx : ℕ) :
    walk n idx pos = (pos + idx) % (n + 1) := by
  induction idx generalizing pos with
  | zero => exact (Nat.mod_eq_of_lt (Nat.lt_succ_of_le hp)).symm
  | succ idx ih =>
    have hem : ¬ listEmpty n pos = true := by
      rw [listEmpty_eq_true_iff hp]
      omega
    rw [walk, if_neg hem, ih (next_le hp), next]
    by_cases he : pos = n
    · rw [if_pos he, he, show n + (idx + 1) = 0 + idx + (n + 1) by omega, Nat.add_mod_right]
    · rw [if_neg he, Nat.add_right_comm, Nat.add_assoc]

theorem getDevice_eq_null_of_nil {b : Bus} (h : b.devices = []) (idx : ℕ) :
    b.getDevice idx = .null := by
  have he : listEmpty 0 0 = true := rfl
  cases idx <;> simp [getDevice, h, next, walk, he]

theorem getDevice_eq_containerOf {b : Bus} (h : 0 < b.devices.length) (idx : ℕ) :
    b.getDevice idx = b.containerOf ((1 + idx) % (b.devices.length + 1)) := by
  have hlt : (1 + idx) % (b.devices.length + 1) ≤ b.devices.length :=
    Nat.le_of_lt_succ (Nat.mod_lt _ (Nat.succ_pos _))
  have hf : next b.devices.length 0 = 1 := if_neg (ne_of_lt h)
  simp only [getDevice, hf, walk_eq h h]
  rw [if_neg (by rw [listEmpty_eq_true_iff hlt]; omega)]

theorem getDevice_of_getElem? {b : Bus} {idx : ℕ} (h : b.devices[idx]? = some d) :
    b.getDevice idx = .device d := by
  obtain ⟨hlt, -⟩ := List.getElem?_eq_some_iff.mp h
  rw [getDevice_eq_containerOf (Nat.zero_lt_of_lt hlt),
    Nat.mod_eq_of_lt (by omega : 1 + idx < b.devices.length + 1), Nat.add_comm, containerOf, h]
  rfl

theorem getDevice_ne_null {b : Bus} (h : 0 < b.devices.length) (idx : ℕ) :
    b.getDevice idx ≠ .null := by
  rw [getDevice_eq_containerOf h]
  have hlt := Nat.mod_lt (1 + idx) (Nat.succ_pos b.devices.length)
  generalize (1 + idx) % (b.devices.length + 1) = pos at hlt
  cases pos with
  | zero => exact Lookup.noConfusion
  | succ pos =>
    rw [containerOf, getElem?_eq_getElem (by omega : pos < b.devices.length)]
    exact Lookup.noConfusion

/-! ### Ids and positions -/

/-- The ids of the devices are distinct, and each device is found under its id. -/
structure Named (b : Bus) : Prop where
  distinct : (b.devices.map Device.devId).Nodup
  found : ∀ d ∈ b.devices, b.getDevice d.devId = .device d

/-- A lookup returns the device with the id, or null if no device has it. -/
def RightAnswer (b : Bus) (idx : ℕ) : Prop :=
  match b.getDevice idx with
  | .null => ∀ d ∈ b.devices, d.devId ≠ idx
  | .device d => d ∈ b.devices ∧ d.devId = idx
  | .listHead => False

/-- The ids are the positions, and the devices stand at different allocated addresses. -/
structure Positional (b : Bus) : Prop where
  ids : b.devices.map Device.devId = List.range b.devices.length
  num : b.numDevs = b.devices.length
  addrs : (b.devices.map Device.addr).Nodup
  allocated : ∀ d ∈ b.devices, d.addr < b.brk

section

variable {b : Bus}

theorem positional_new : Positional new :=
  ⟨rfl, rfl, nodup_nil, by simp [new]⟩

theorem Positional.devId_eq (h : Positional b) {i : ℕ}
    (hd : b.devices[i]? = some d) : d.devId = i := by
  have hlt := (List.getElem?_eq_some_iff.mp hd).1
  have hi : (b.devices.map Device.devId)[i]? = some d.devId := by
    rw [getElem?_map, hd, Option.map_some]
  rw [h.ids, getElem?_range hlt, Option.some.injEq] at hi
  exact hi.symm

theorem Positional.named (h : Positional b) : Named b where
  distinct := h.ids ▸ nodup_range
  found d hd := by
    obtain ⟨i, hi⟩ := getElem?_of_mem hd
    rw [h.devId_eq hi]
    exact getDevice_of_getElem? hi

theorem Positional.rightAnswer_iff (h : Positional b) (idx : ℕ) :
    RightAnswer b idx ↔ idx < b.devices.length ∨ b.devices = [] := by
  rw [RightAnswer]
  rcases Nat.eq_zero_or_pos b.devices.length with hn | hp
  · rw [length_eq_zero_iff] at hn
    rw [getDevice_eq_null_of_nil hn]
    simp [hn]
  have hne : b.devices ≠ [] := ne_nil_of_length_pos hp
  rw [or_iff_left hne]
  constructor
  · intro hr
    cases hg : b.getDevice idx with
    | null => exact absurd hg (getDevice_ne_null hp idx)
    | listHead => rw [hg] at hr; exact hr.elim
    | device d =>
      rw [hg] at hr
      obtain ⟨hd, rfl⟩ := hr
      obtain ⟨i, hi⟩ := getElem?_of_mem hd
      rw [h.devId_eq hi]
      exact (List.getElem?_eq_some_iff.mp hi).1
  · intro hlt
    have hd := getElem?_eq_getElem hlt
    rw [getDevice_of_getElem? hd]
    exact ⟨mem_of_getElem? hd, h.devId_eq hd⟩

theorem Positional.addDevice (h : Positional b) : Positional b.addDevice where
  ids := by
    simp only [Bus.addDevice, map_append, map_cons, map_nil, h.ids, h.num,
      length_append, length_cons, length_nil, range_succ, Nat.zero_add]
  num := by simp [Bus.addDevice, h.num]
  addrs := by
    simp only [Bus.addDevice, map_append, map_cons, map_nil]
    refine List.Nodup.append h.addrs (nodup_singleton _) ?_
    intro a ha hb
    rw [mem_singleton] at hb
    obtain ⟨d, hd, rfl⟩ := mem_map.mp ha
    exact absurd (h.allocated d hd) (by omega)
  allocated d hd := by
    rcases mem_append.mp hd with hd | hd
    · exact Nat.lt_succ_of_lt (h.allocated d hd)
    · rw [mem_singleton.mp hd]
      exact Nat.lt_succ_self _

theorem filter_addr_of_nodup {l : List Device} (h : ((l ++ [d]).map Device.addr).Nodup) :
    (l ++ [d]).filter (fun x => x.addr != d.addr) = l := by
  rw [map_append, nodup_append] at h
  have hl : ∀ x ∈ l, (x.addr != d.addr) = true := fun x hx => by
    simpa using h.2.2 _ (mem_map_of_mem hx) _ (mem_singleton_self _)
  rw [filter_append, filter_eq_self.mpr hl]
  simp

theorem Positional.delDevice_last (h : Positional b) {l : List Device}
    (hs : b.devices = l ++ [d]) : Positional (b.delDevice d.addr) := by
  have ha := h.addrs
  have hi := h.ids
  rw [hs] at ha
  have hr : (b.delDevice d.addr).devices = l := by
    rw [delDevice, hs]
    exact filter_addr_of_nodup ha
  rw [hs, length_append, length_singleton, range_succ, map_append]
    at hi
  refine ⟨?_, ?_, ?_, ?_⟩
  · rw [hr]
    exact (append_inj' hi rfl).1
  · rw [hr, delDevice, h.num, hs, length_append, length_singleton, Nat.add_sub_cancel]
  · rw [hr]
    rw [map_append] at ha
    exact ha.of_append_left
  · intro x hx
    rw [hr] at hx
    exact h.allocated x (hs ▸ mem_append_left _ hx)

/-- Removing a device that another one follows: the one that follows is not found under its
id any more. -/
theorem Positional.not_named_delDevice (h : Positional b) {pre post : List Device} {d' : Device}
    (hs : b.devices = pre ++ d :: d' :: post) : ¬ Named (b.delDevice d.addr) := by
  intro hn
  have ha := h.addrs
  have hi : d'.devId = pre.length + 1 := h.devId_eq (by simp [hs])
  rw [hs, map_append, map_cons, map_cons, nodup_append, nodup_cons, nodup_cons] at ha
  obtain ⟨-, ⟨hd, hd', -⟩, hc⟩ := ha
  have hr : (b.delDevice d.addr).devices = pre ++ d' :: post := by
    rw [delDevice, hs]
    refine filter_append_cons (fun x hx => ?_) (by simp) fun x hx => ?_
    · simpa using hc _ (mem_map_of_mem hx) _ mem_cons_self
    · have hx' : x.addr ∈ d'.addr :: post.map Device.addr := mem_map_of_mem hx
      simpa using fun heq : x.addr = d.addr => hd (heq ▸ hx')
  have hl : (b.delDevice d.addr).devices.length = pre.length + 1 + post.length := by
    rw [hr, length_append, length_cons]
    omega
  have hf := hn.found d' (by rw [hr]; simp)
  rw [hi, getDevice_eq_containerOf (by omega), hl] at hf
  cases post with
  | nil =>
    -- the walk ends at the list head
    rw [length_nil, Nat.add_zero, Nat.add_comm 1, Nat.mod_self] at hf
    exact Lookup.noConfusion hf
  | cons d'' post =>
    -- the walk ends at the device that comes after the one looked for
    have hp : 1 + (pre.length + 1) < pre.length + 1 + (d'' :: post).length + 1 := by
      rw [length_cons]
      omega
    have hat : (pre ++ d' :: d'' :: post)[pre.length + 1]? = some d'' := by simp
    rw [Nat.mod_eq_of_lt hp, Nat.add_comm, containerOf, hr, hat, Option.elim_some,
      Lookup.device.injEq] at hf
    rw [map_cons, hf] at hd'
    exact hd' mem_cons_self

end

/-! ### Runs -/

/-- What happens on the bus: a new device is added, its initialisation fails, a device is
removed, and a device is looked up. -/
inductive Action where
  | newDevice
  | initFails (addr : ℕ)
  | deleteDevice (addr : ℕ)
  | lookup (idx : ℕ)

def remove (b : Bus) (addr : ℕ) : Bus :=
  if b.devices.any fun d => d.addr == addr then b.delDevice addr else b

/-- `tlkm_bus_new_device` adds the device before it initialises it, and takes it off the bus again
if that fails. -/
def step (b : Bus) : Action → Bus
  | .newDevice => b.addDevice
  | .initFails addr => b.remove addr
  | .deleteDevice addr => b.remove addr
  | .lookup _ => b

def Answered (b : Bus) : Action → Prop
  | .lookup idx => b.RightAnswer idx
  | _ => True

def RemovesLast (b : Bus) (addr : ℕ) : Prop :=
  ∀ d ∈ b.devices, d.addr = addr → b.devices.getLast? = some d

/-- Only the last device is removed, and a lookup on a bus with devices does not go past
the last one. -/
def LastInFirstOut (b : Bus) : Action → Prop
  | .newDevice => True
  | .initFails addr => b.RemovesLast addr
  | .deleteDevice addr => b.RemovesLast addr
  | .lookup idx => idx < b.devices.length ∨ b.devices = []

section

variable {b : Bus}

theorem remove_of_forall_ne {a : ℕ} (ha : ∀ d ∈ b.devices, d.addr ≠ a) : b.remove a = b :=
  if_neg (by simpa using ha)

theorem remove_of_mem (hd : d ∈ b.devices) : b.remove d.addr = b.delDevice d.addr :=
  if_pos (any_eq_true.mpr ⟨d, hd, beq_self_eq_true d.addr⟩)

theorem Positional.remove (h : Positional b) {a : ℕ} (ha : b.RemovesLast a) :
    Positional (b.remove a) := by
  by_cases hm : ∃ d ∈ b.devices, d.addr = a
  · obtain ⟨d, hd, rfl⟩ := hm
    obtain ⟨l, hl⟩ := getLast?_eq_some_iff.mp (ha d hd rfl)
    rw [remove_of_mem hd]
    exact h.delDevice_last hl
  · rw [remove_of_forall_ne (by simpa using hm)]
    exact h

theorem Positional.named_remove_iff (h : Positional b) {a : ℕ} :
    Named (b.remove a) ↔ b.RemovesLast a := by
  refine ⟨fun hn d hd hda => ?_, fun ha => (h.remove ha).named⟩
  subst hda
  rw [remove_of_mem hd] at hn
  obtain ⟨pre, post, hs⟩ := append_of_mem hd
  cases post with
  | nil => exact getLast?_eq_some_iff.mpr ⟨pre, hs⟩
  | cons d' post => exact absurd hn (h.not_named_delDevice hs)

theorem Positional.step (h : Positional b) {a : Action} (ha : b.LastInFirstOut a) :
    Positional (b.step a) := by
  cases a with
  | newDevice => exact h.addDevice
  | initFails addr => exact h.remove ha
  | deleteDevice addr => exact h.remove ha
  | lookup idx => exact h

/-- **One step**: where the ids are the positions, an action leaves the devices named and
is answered right exactly when it is last-in first-out. -/
theorem Positional.step_iff (h : Positional b) (a : Action) :
    Named (b.step a) ∧ b.Answered a ↔ b.LastInFirstOut a := by
  cases a with
  | newDevice => exact iff_of_true ⟨h.addDevice.named, trivial⟩ trivial
  | initFails addr => exact (and_iff_left trivial).trans h.named_remove_iff
  | deleteDevice addr => exact (and_iff_left trivial).trans h.named_remove_iff
  | lookup idx => exact (and_iff_right h.named).trans (h.rightAnswer_iff idx)

end

/-- **Device naming**: in every state of a run ids are distinct and each device is found under its
id, and every lookup returns the device with the id or null if there is none, exactly when only the
last device is ever removed and no lookup on a bus with devices goes past the last one. -/
theorem named_iff (as : List Action) :
    (∀ b ∈ Runs.trace step new as, Named b) ∧ Runs.AllSteps step Answered new as ↔
      Runs.AllSteps step LastInFirstOut new as :=
  Runs.trace_and_steps_iff (fun _ h => h.named) (fun _ _ h ha => h.step ha)
    (fun _ a h => h.step_iff a) positional_new as

/-- Two devices are added and the first is removed. The second is not found under its id, another id
finds it, and the next device gets the same id. -/
theorem names_lost_by_removal :
    let b := Runs.run step new [.newDevice, .newDevice, .deleteDevice 0]
    b.devices = [⟨1, 1⟩] ∧ b.getDevice 1 = .listHead ∧ b.getDevice 2 = .device ⟨1, 1⟩ ∧
      (b.step .newDevice).devices = [⟨1, 1⟩, ⟨2, 1⟩] := by
  decide

end Bus

end Tapasco
