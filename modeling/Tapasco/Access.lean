import Tapasco.Bus
import Tapasco.Lib.Threads

/-!
# Access to the Devices

A client opens the device file of the module and then creates and destroys instances of devices in
one of three access modes. `tlkm_device_acquire` and `tlkm_device_release` count the instances of
each mode in the device, `tlkm_ioctl_create_device` and `tlkm_ioctl_destroy_device` keep those of a
client in a list of its file, and `tlkm_miscdev_open` and `tlkm_miscdev_release` start with an empty
list and give back what is left on it.

The list of a file is touched by its client only, so a request is one step, at the point at
which it has the mutex of the device. Closing a file releases one instance at a time, and
other clients run in between. Counters are integers, so that an underflow shows as a
negative number. Creating an instance under an id for which the bus returns its list head
has no defined result. The allocations of kernel memory in opening a file and creating an
instance are taken to succeed.
-/

open Threads List

open Function

namespace Tapasco.Access

/-- `tlkm_access_t`. -/
inductive Mode where
  | exclusive
  | monitor
  | shared
  deriving DecidableEq

def ebusy : ℤ := 16

def enxio : ℤ := 6

def enodev : ℤ := 19

abbrev RefCnt : Type :=
  Mode → ℤ

/-- `tlkm_device_acquire` on the counters of an existing device, and what it returns. -/
def tlkmDeviceAcquire (cnt : RefCnt) (access : Mode) : RefCnt × ℤ :=
  if cnt .exclusive ≠ 0 ∧ access ≠ .monitor then (cnt, -ebusy)
  else if cnt .shared ≠ 0 ∧ access = .exclusive then (cnt, -ebusy)
  else (Function.update cnt access (cnt access + 1), 0)

/-- `tlkm_device_release` on the counters of an existing device. -/
def tlkmDeviceRelease (cnt : RefCnt) (access : Mode) : RefCnt :=
  if 0 < cnt .exclusive + cnt .monitor + cnt .shared then
    Function.update cnt access (cnt access - 1)
  else cnt

/-- An instance on the list of a client: the device and the mode. -/
structure Instance where
  pdev : Device
  access : Mode
  deriving DecidableEq

/-- How far a client is. -/
inductive Phase where
  | opened
  | closing
  | closed
  deriving DecidableEq

/-- A client of the file, and the devices on its list. -/
structure Client where
  phase : Phase
  devList : List Instance

/-- The counters of the devices, the clients, and how often the file is open. -/
structure Driver where
  refCnt : Device → RefCnt
  clients : List Client
  openedCounter : ℤ

def Driver.new : Driver :=
  ⟨fun _ _ => 0, [], 0⟩

/-- The counters of one device after a change of another one's. -/
def setRefCnt (s : Driver) (d : Device) (cnt : RefCnt) : Driver :=
  { s with refCnt := Function.update s.refCnt d cnt }

def setClient (s : Driver) (t : ℕ) (c : Client) : Driver :=
  { s with clients := s.clients.set t c }

def tlkmMiscdevOpen (s : Driver) : Driver :=
  { s with clients := s.clients ++ [⟨.opened, []⟩], openedCounter := s.openedCounter + 1 }

/-- `tlkm_ioctl_create_device`: the state and what the call returns. -/
def tlkmIoctlCreateDevice (bus : Bus) (s : Driver) (t : ℕ) (c : Client) (devId : ℕ)
    (access : Mode) : Option (Driver × ℤ) :=
  match bus.getDevice devId with
  | .null => some (s, -enxio)
  | .listHead => none
  | .device d =>
    match tlkmDeviceAcquire (s.refCnt d) access with
    | (cnt, ret) =>
      if ret = 0 then
        some (setClient (setRefCnt s d cnt) t { c with devList := ⟨d, access⟩ :: c.devList }, 0)
      else some (setRefCnt s d cnt, ret)

def tlkmIoctlDestroyDevice (bus : Bus) (s : Driver) (t : ℕ) (c : Client) (devId : ℕ)
    (access : Mode) : Driver × ℤ :=
  match bus.getDevice devId with
  | .device d =>
    if ⟨d, access⟩ ∈ c.devList then
      (setClient (setRefCnt s d (tlkmDeviceRelease (s.refCnt d) access)) t
        { c with devList := c.devList.erase ⟨d, access⟩ }, 0)
    else (s, -enodev)
  | _ => (s, -enodev)

/-- One round of the loop of `tlkm_miscdev_release`, or its end. -/
def tlkmMiscdevRelease (s : Driver) (t : ℕ) : List Instance → Driver
  | [] => setClient s t ⟨.closed, []⟩
  | e :: l =>
    setClient (setRefCnt s e.pdev (tlkmDeviceRelease (s.refCnt e.pdev) e.access)) t
      ⟨.closing, l⟩

/-! ### The counters of one device -/

/-- An exclusive instance is the only one besides monitoring ones. -/
def Exclusive (cnt : RefCnt) : Prop :=
  cnt .exclusive ≤ 1 ∧ (cnt .exclusive = 0 ∨ cnt .shared = 0)

/-- The counters with one instance of a mode more, or less. -/
def addRef (cnt : RefCnt) (access : Mode) (k : ℤ) : RefCnt :=
  Function.update cnt access (cnt access + k)

theorem addRef_apply (cnt : RefCnt) (access m : Mode) (k : ℤ) :
    addRef cnt access k m = cnt m + if access = m then k else 0 := by
  by_cases h : access = m
  · subst h
    rw [addRef, update_self, if_pos rfl]
  · rw [addRef, update_of_ne (Ne.symm h), if_neg h, add_zero]

/-- **What `tlkm_device_acquire` does**: it is refused, or it counts the instance, and exclusive
access stays exclusive. -/
theorem acquire_cases {cnt : RefCnt} (h : Exclusive cnt) (access : Mode) :
    tlkmDeviceAcquire cnt access = (cnt, -ebusy) ∨
      tlkmDeviceAcquire cnt access = (addRef cnt access 1, 0) ∧
        Exclusive (addRef cnt access 1) := by
  rw [tlkmDeviceAcquire]
  by_cases h₁ : cnt .exclusive ≠ 0 ∧ access ≠ .monitor
  · exact Or.inl (if_pos h₁)
  rw [if_neg h₁]
  by_cases h₂ : cnt .shared ≠ 0 ∧ access = .exclusive
  · exact Or.inl (if_pos h₂)
  refine Or.inr ⟨if_neg h₂, ?_⟩
  obtain ⟨hle, hor⟩ := h
  cases access with
  | exclusive => simp [Exclusive, addRef_apply] at h₁ h₂ hor ⊢; omega
  | monitor => simpa [Exclusive, addRef_apply] using ⟨hle, hor⟩
  | shared => simp [Exclusive, addRef_apply] at h₁ h₂ hor ⊢; omega

/-- **What `tlkm_device_release` does** where the instance is counted. -/
theorem release_eq {cnt : RefCnt} (hn : ∀ m, 0 ≤ cnt m) {access : Mode}
    (hp : 0 < cnt access) : tlkmDeviceRelease cnt access = addRef cnt access (-1) := by
  have ht : 0 < cnt .exclusive + cnt .monitor + cnt .shared := by
    have h₁ := hn .exclusive
    have h₂ := hn .monitor
    have h₃ := hn .shared
    cases access <;> omega
  rw [tlkmDeviceRelease, if_pos ht]
  rfl

theorem exclusive_release {cnt : RefCnt} (h : Exclusive cnt) {access : Mode}
    (hp : 0 < cnt access) : Exclusive (addRef cnt access (-1)) := by
  obtain ⟨hle, ho⟩ := h
  cases access <;> simp [Exclusive, addRef_apply] <;> omega

/-! ### Interleavings of clients -/

/-- A new client opens the file, an open one creates or destroys an instance or starts to close, a
closing one does one round of its loop. -/
inductive Action where
  | open
  | create (t devId : ℕ) (access : Mode)
  | destroy (t devId : ℕ) (access : Mode)
  | close (t : ℕ)
  | closeNext (t : ℕ)

/-- A step of client `t`, if it is in the phase. -/
def atPhase (s : Driver) (t : ℕ) (phase : Phase) (f : Client → Option Driver) : Option Driver :=
  match s.clients[t]? with
  | none => some s
  | some c => if c.phase = phase then f c else some s

/-- The effect of an action, `none` once something undefined has happened. -/
def step (bus : Bus) (s : Option Driver) : Action → Option Driver
  | .open => s.map tlkmMiscdevOpen
  | .create t devId access =>
    s.bind fun s => atPhase s t .opened fun c =>
      (tlkmIoctlCreateDevice bus s t c devId access).map Prod.fst
  | .destroy t devId access =>
    s.bind fun s => atPhase s t .opened fun c =>
      some (tlkmIoctlDestroyDevice bus s t c devId access).1
  | .close t =>
    s.bind fun s => atPhase s t .opened fun c =>
      some { setClient s t { c with phase := .closing } with
        openedCounter := s.openedCounter - 1 }
  | .closeNext t =>
    s.bind fun s => atPhase s t .closing fun c => some (tlkmMiscdevRelease s t c.devList)

/-- Instances are created under ids of devices on the bus. -/
def ValidId (bus : Bus) : Action → Prop
  | .create _ devId _ => ∃ d, bus.getDevice devId = .device d
  | _ => True

/-- The instances of a device and mode that a client has, as long as it is not closed. -/
def held (d : Device) (m : Mode) (c : Client) : ℕ :=
  if c.phase = .closed then 0 else c.devList.count ⟨d, m⟩

def opened (c : Client) : ℕ :=
  if c.phase = .opened then 1 else 0

/-- The counters are the instances that the clients have, an exclusive instance excludes all but
monitoring ones, and when all clients have closed the file the counters are zero. -/
structure Accounted (s : Driver) : Prop where
  refCnt_eq : ∀ d m, s.refCnt d m = total (held d m) s.clients
  exclusive_le_one : ∀ d, total (held d .exclusive) s.clients ≤ 1
  exclusive_or_shared : ∀ d, total (held d .exclusive) s.clients = 0 ∨
    total (held d .shared) s.clients = 0
  nonneg : ∀ d m, 0 ≤ s.refCnt d m
  openedCounter_eq : s.openedCounter = total opened s.clients
  zero_of_closed : (∀ c ∈ s.clients, c.phase = .closed) → ∀ d m, s.refCnt d m = 0

/-! ### One step of one client -/

/-- The counters of the devices are the instances of the clients, and exclusive access is
exclusive. -/
structure Inv (s : Driver) : Prop where
  refCnt_eq : ∀ d m, s.refCnt d m = total (held d m) s.clients
  exclusive : ∀ d, Exclusive (s.refCnt d)
  openedCounter_eq : s.openedCounter = total opened s.clients

section

variable {s : Driver} {t : ℕ} {c : Client}

theorem inv_new : Inv Driver.new :=
  ⟨fun _ _ => rfl, fun _ => ⟨zero_le_one, .inl rfl⟩, rfl⟩

theorem Inv.nonneg (h : Inv s) (d : Device) (m : Mode) : 0 ≤ s.refCnt d m := by
  rw [h.refCnt_eq]
  exact Int.natCast_nonneg _

theorem Inv.held_le (h : Inv s) (hc : s.clients[t]? = some c) (d : Device) (m : Mode) :
    (held d m c : ℤ) ≤ s.refCnt d m := by
  have hs := total_set (held d m) hc (d := (⟨.closed, []⟩ : Client))
  have hz : held d m ⟨.closed, []⟩ = 0 := rfl
  have heq := h.refCnt_eq d m
  omega

theorem Inv.accounted (h : Inv s) : Accounted s where
  refCnt_eq := h.refCnt_eq
  exclusive_le_one d := by
    have hle := (h.exclusive d).1
    rw [h.refCnt_eq] at hle
    exact_mod_cast hle
  exclusive_or_shared d := by
    have ho := (h.exclusive d).2
    rw [h.refCnt_eq, h.refCnt_eq] at ho
    exact_mod_cast ho
  nonneg := h.nonneg
  openedCounter_eq := h.openedCounter_eq
  zero_of_closed hcl d m := by
    have hz : total (held d m) s.clients = 0 := total_eq_zero fun c hc => if_pos (hcl c hc)
    rw [h.refCnt_eq, hz]
    rfl

/-- **A step of one client** that changes the counters of a device by as much as the
client's own instances of it. -/
theorem Inv.set (h : Inv s) (hc : s.clients[t]? = some c) {c' : Client} {d : Device}
    {cnt : RefCnt} (hex : Exclusive cnt) (hp : opened c' = opened c)
    (hse : ∀ m, cnt m + held d m c = s.refCnt d m + held d m c')
    (ho : ∀ e m, e ≠ d → held e m c' = held e m c) : Inv (setClient (setRefCnt s d cnt) t c') where
  refCnt_eq e m := by
    have hs := total_set (held e m) hc (d := c')
    have heq := h.refCnt_eq e m
    simp only [setClient, setRefCnt]
    by_cases he : e = d
    · subst he
      rw [update_self]
      have := hse m
      omega
    · rw [update_of_ne he]
      have := ho e m he
      omega
  exclusive e := by
    simp only [setClient, setRefCnt]
    by_cases he : e = d
    · rw [he, update_self]
      exact hex
    · rw [update_of_ne he]
      exact h.exclusive e
  openedCounter_eq := by
    have hs := total_set opened hc (d := c')
    have heq := h.openedCounter_eq
    simp only [setClient, setRefCnt]
    omega

theorem Inv.open (h : Inv s) : Inv (tlkmMiscdevOpen s) where
  refCnt_eq d m := by
    have hz : held d m ⟨.opened, []⟩ = 0 := rfl
    simp only [tlkmMiscdevOpen, total_concat, hz, add_zero]
    exact h.refCnt_eq d m
  exclusive := h.exclusive
  openedCounter_eq := by
    have ho : opened ⟨.opened, []⟩ = 1 := rfl
    have heq := h.openedCounter_eq
    simp only [tlkmMiscdevOpen, total_concat, ho]
    omega

variable {phase : Phase}

theorem held_of_ne_closed (h : phase ≠ .closed) (l : List Instance) (d : Device) (m : Mode) :
    held d m ⟨phase, l⟩ = l.count ⟨d, m⟩ :=
  if_neg h

theorem Inv.create {l : List Instance} (h : Inv s) (hc : s.clients[t]? = some ⟨phase, l⟩)
    (hp : phase ≠ .closed) {bus : Bus} {devId : ℕ} {d : Device}
    (hd : bus.getDevice devId = .device d) (access : Mode) :
    ∃ s' r, tlkmIoctlCreateDevice bus s t ⟨phase, l⟩ devId access = some (s', r) ∧ Inv s' := by
  rw [tlkmIoctlCreateDevice, hd]
  rcases acquire_cases (h.exclusive d) access with ha | ⟨ha, hex⟩
  · refine ⟨s, -ebusy, ?_, h⟩
    simp only [ha, setRefCnt, update_eq_self]
    exact if_neg (by decide)
  simp only [ha]
  refine ⟨_, 0, if_pos trivial, h.set hc hex rfl (fun m => ?_) fun e m he => ?_⟩
  · rw [held_of_ne_closed hp, held_of_ne_closed hp, addRef_apply, count_cons]
    by_cases hm : access = m
    · simp only [hm, if_true, beq_self_eq_true]
      omega
    · simp [hm]
  · have ho : (⟨d, access⟩ : Instance) ≠ ⟨e, m⟩ := fun heq => by
      rw [Instance.mk.injEq] at heq
      exact he heq.1.symm
    rw [held_of_ne_closed hp, held_of_ne_closed hp, count_cons_of_ne ho]

theorem Inv.release {l : List Instance} (h : Inv s) (hc : s.clients[t]? = some ⟨phase, l⟩)
    (hph : phase ≠ .closed) {d : Device} {access : Mode} (hme : ⟨d, access⟩ ∈ l) :
    Inv (setClient (setRefCnt s d (tlkmDeviceRelease (s.refCnt d) access)) t
      ⟨phase, l.erase ⟨d, access⟩⟩) := by
  have hco : 0 < l.count ⟨d, access⟩ := count_pos_iff.mpr hme
  have hp : 0 < s.refCnt d access := by
    have hle := h.held_le hc d access
    rw [held_of_ne_closed hph] at hle
    omega
  rw [release_eq (h.nonneg d) hp]
  refine h.set hc (exclusive_release (h.exclusive d) hp) rfl (fun m => ?_)
    fun e m he => ?_
  · rw [held_of_ne_closed hph, held_of_ne_closed hph, addRef_apply]
    by_cases hm : access = m
    · subst hm
      rw [if_pos rfl, count_erase_self]
      omega
    have ho : (⟨d, m⟩ : Instance) ≠ ⟨d, access⟩ := fun heq => by
      rw [Instance.mk.injEq] at heq
      exact hm heq.2.symm
    rw [if_neg hm, count_erase_of_ne ho, add_zero]
  · have ho : (⟨e, m⟩ : Instance) ≠ ⟨d, access⟩ := fun heq => by
      rw [Instance.mk.injEq] at heq
      exact he heq.1
    rw [held_of_ne_closed hph, held_of_ne_closed hph, count_erase_of_ne ho]

theorem Inv.destroy (h : Inv s) (hc : s.clients[t]? = some c) (hp : c.phase = .opened)
    (bus : Bus) (devId : ℕ) (access : Mode) :
    Inv (tlkmIoctlDestroyDevice bus s t c devId access).1 := by
  rw [tlkmIoctlDestroyDevice]
  cases bus.getDevice devId with
  | null => exact h
  | listHead => exact h
  | device d =>
    by_cases hm : (⟨d, access⟩ : Instance) ∈ c.devList
    · simp only [if_pos hm]
      exact h.release hc (by rw [hp]; exact Phase.noConfusion) hm
    · simp only [if_neg hm]
      exact h

theorem Inv.close (h : Inv s) (hc : s.clients[t]? = some c) (hp : c.phase = .opened) :
    Inv { setClient s t { c with phase := .closing } with
      openedCounter := s.openedCounter - 1 } where
  refCnt_eq d m := by
    have hs := total_set (held d m) hc (d := { c with phase := .closing })
    have hsa : held d m { c with phase := .closing } = held d m c := by
      simp [held, hp]
    have heq := h.refCnt_eq d m
    simp only [setClient]
    omega
  exclusive := h.exclusive
  openedCounter_eq := by
    have hs := total_set opened hc (d := { c with phase := .closing })
    have ho : opened c = 1 := if_pos hp
    have hz : opened { c with phase := .closing } = 0 := if_neg (by simp)
    have heq := h.openedCounter_eq
    simp only [setClient]
    omega

theorem Inv.closeNext (h : Inv s) (hc : s.clients[t]? = some c)
    (hp : c.phase = .closing) : Inv (tlkmMiscdevRelease s t c.devList) := by
  obtain ⟨phase, l⟩ := c
  obtain rfl : phase = .closing := hp
  cases l with
  | cons e l =>
    have hr := h.release (d := e.pdev) hc Phase.noConfusion mem_cons_self
    rwa [erase_cons_head] at hr
  | nil =>
    refine ⟨fun d m => ?_, h.exclusive, ?_⟩
    · have hs := total_set (held d m) hc (d := ⟨.closed, []⟩)
      have hz : held d m ⟨.closed, []⟩ = 0 := rfl
      have hz' : held d m ⟨.closing, []⟩ = 0 := rfl
      have heq := h.refCnt_eq d m
      simp only [tlkmMiscdevRelease, setClient]
      omega
    · have hs := total_set opened hc (d := ⟨.closed, []⟩)
      have hz : opened ⟨.closed, []⟩ = 0 := rfl
      have hz' : opened ⟨.closing, []⟩ = 0 := rfl
      have heq := h.openedCounter_eq
      simp only [tlkmMiscdevRelease, setClient]
      omega

theorem atPhase_inv (h : Inv s) {f : Client → Option Driver}
    (hf : ∀ c, s.clients[t]? = some c → c.phase = phase → ∃ s', f c = some s' ∧ Inv s') :
    ∃ s', atPhase s t phase f = some s' ∧ Inv s' := by
  rw [atPhase]
  cases hc : s.clients[t]? with
  | none => exact ⟨s, rfl, h⟩
  | some c =>
    by_cases hp : c.phase = phase
    · obtain ⟨s', hs', hi⟩ := hf c hc hp
      exact ⟨s', (if_pos hp).trans hs', hi⟩
    · exact ⟨s, if_neg hp, h⟩

theorem step_inv (h : Inv s) {bus : Bus} {a : Action} (ha : ValidId bus a) :
    ∃ s', step bus (some s) a = some s' ∧ Inv s' := by
  cases a with
  | «open» => exact ⟨_, rfl, h.open⟩
  | create t devId access =>
    obtain ⟨d, hd⟩ := ha
    refine atPhase_inv h fun c hc hp => ?_
    obtain ⟨s', r, hcr, hi⟩ := h.create hc (by rw [hp]; exact Phase.noConfusion) hd access
    exact ⟨s', by rw [hcr, Option.map_some], hi⟩
  | destroy t devId access =>
    exact atPhase_inv h fun c hc hp => ⟨_, rfl, h.destroy hc hp bus devId access⟩
  | close t => exact atPhase_inv h fun c hc hp => ⟨_, rfl, h.close hc hp⟩
  | closeNext t => exact atPhase_inv h fun c hc hp => ⟨_, rfl, h.closeNext hc hp⟩

end

/-- **Access control**: in every interleaving of any number of clients the counters of each device
are the instances that the clients have, an exclusive instance never stands next to another
exclusive or shared one, no counter is negative, and all are zero once all clients have closed the
file. -/
theorem accounted_of_mem_trace (bus : Bus) (as : List Action) (has : ∀ a ∈ as, ValidId bus a) :
    ∀ st ∈ Runs.trace (step bus) (some Driver.new) as, ∃ s, st = some s ∧ Accounted s := by
  have hstep : ∀ st a, (∃ s, st = some s ∧ Inv s) → ValidId bus a →
      ∃ s, step bus st a = some s ∧ Inv s := by
    rintro _ a ⟨s, rfl, hinv⟩ ha
    exact step_inv hinv ha
  intro st hst
  obtain ⟨s, hs, hinv⟩ := Runs.forall_mem_trace_of hstep ⟨_, rfl, inv_new⟩
    (Runs.allSteps_of_forall_mem _ has) st hst
  exact ⟨s, hs, hinv.accounted⟩

/-- The second client is refused, and the first one closes with an instance it still has. -/
theorem accounted_of_mem_trace_two_clients :
    ∃ s, Runs.run (step (Bus.new.addDevice)) (some Driver.new)
        [.open, .open, .create 0 0 .exclusive, .create 1 0 .shared, .create 1 0 .monitor,
          .close 0, .destroy 1 0 .monitor, .closeNext 0] = some s ∧ Accounted s := by
  refine accounted_of_mem_trace _ _ (fun a ha => ?_) _ (Runs.run_mem_trace _ _)
  have hfound : Bus.new.addDevice.getDevice 0 = .device ⟨0, 0⟩ := by decide
  simp only [mem_cons, not_mem_nil, or_false] at ha
  rcases ha with rfl | rfl | rfl | rfl | rfl | rfl | rfl | rfl
  · trivial
  · trivial
  · exact ⟨_, hfound⟩
  · exact ⟨_, hfound⟩
  · exact ⟨_, hfound⟩
  · trivial
  · trivial
  · trivial

end Tapasco.Access
