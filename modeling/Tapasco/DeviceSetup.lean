import Tapasco.Scheduler
import Tapasco.Allocator
import Tapasco.StatusMessage

/-!
# Creating the PEs of a Device

This module embeds the end of `Device::new`: the local memories of the PEs are created in one
loop over the entries of the status message, and `Scheduler::new` creates the PEs in another
one, which hands the local memories out by position. The interrupt of a PE is the one its
entry publishes, or a guess from a running count.

The interrupt is registered with the kernel module, which refuses a number that is already
taken (`tlkm_device_reg_int`), or, for a simulated device, with the simulation server, which
files the registration under the eventfd and does not look at the numbers of others
(`SimServer.register_interrupt`). Both get the number as a 32-bit word.

Device memory 0 is the off-chip memory, and the local memories follow in their order.
-/

open List

namespace Tapasco.DeviceSetup

open StatusMessage (MemoryArea)

/-- Message `Pe` of the status core. -/
abbrev PeEntry := StatusMessage.StatusPe

def scheduled (pe : PeEntry) : StatusPe :=
  ⟨pe.name, pe.id, pe.offset, pe.localMemory.isSome,
    pe.interrupts.map StatusMessage.Interrupt.mapping⟩

/-- The names of the device types. -/
inductive DeviceKind where
  | pcie
  | zynq
  | zynqmp
  | sim
  deriving DecidableEq

/-- The transfers to a local memory: by the simulator or by the CPU. -/
inductive LocalDMA where
  | sim (offset size : ℕ)
  | direct (offset size : ℕ)

/-- The window of the device that the transfers go to. -/
def LocalDMA.window : LocalDMA → MemoryArea
  | .sim offset size => ⟨offset, size⟩
  | .direct offset size => ⟨offset, size⟩

/-- The `OffchipMemory` of a local memory. -/
structure LocalMemory where
  allocator : GenericAllocator
  dma : LocalDMA

/-- The errors of `Device::new` that come from this part. -/
inductive DeviceError where
  | allocatorError (source : AllocatorError)
  | dmaError
  | schedulerError (source : SchedulerError)

/-- The part of a `Device` that is created here. -/
structure PeTable where
  localMemories : List LocalMemory
  scheduler : Scheduler

/-! ### Local memories -/

/-- Create the memory for a window. `client` says whether the simulation server can be
reached. -/
def createLocalMemory (kind : DeviceKind) (client : Bool) (l : MemoryArea) :
    Except DeviceError LocalMemory :=
  match GenericAllocator.new 0 l.size 1 with
  | .error e => .error (.allocatorError e)
  | .ok allocator =>
    if kind = .sim then
      if client then .ok ⟨allocator, .sim l.base l.size⟩ else .error .dmaError
    else .ok ⟨allocator, .direct l.base l.size⟩

def createLocalMemories (kind : DeviceKind) (client : Bool) :
    List PeEntry → Except DeviceError (List LocalMemory)
  | [] => .ok []
  | pe :: pes =>
    match pe.localMemory with
    | none => createLocalMemories kind client pes
    | some l =>
      match createLocalMemory kind client l with
      | .error e => .error e
      | .ok m =>
        match createLocalMemories kind client pes with
        | .error e => .error e
        | .ok ms => .ok (m :: ms)

/-! ### Interrupts -/

/-- The number under which an interrupt is registered: `interrupt_id as i32`. -/
def registeredNumber (interruptId : ℕ) : ℕ :=
  interruptId % 2 ^ 32

/-- Register an interrupt. `answers` says for which numbers the back end of the driver, or the
simulation server, has no error; `taken` are the numbers registered before. -/
def register (kind : DeviceKind) (answers : ℕ → Bool) (taken : List ℕ) (interruptId : ℕ) :
    Option (List ℕ) :=
  let n := registeredNumber interruptId
  if kind ≠ .sim ∧ n ∈ taken then none
  else if answers n then some (taken ++ [n]) else none

/-- The loop of `Scheduler::new` with the registration of the interrupts. -/
def addPes (kind : DeviceKind) (answers : ℕ → Bool) (svmInUse : Bool) :
    ℕ → List StatusPe → Scheduler.Setup → List ℕ →
      Except SchedulerError (Scheduler.Setup × List ℕ)
  | _, [], st, taken => .ok (st, taken)
  | i, entry :: entries, st, taken =>
    match register kind answers taken (Scheduler.interruptOf st.interruptId entry) with
    | none => .error (.peError .errorInterrupt)
    | some taken' =>
      match Scheduler.addPe (fun _ => true) svmInUse i entry st with
      | .error e => .error e
      | .ok st' => addPes kind answers svmInUse (i + 1) entries st' taken'

def firstInterrupt (kind : DeviceKind) (svmInUse : Bool) : ℕ :=
  if kind = .pcie ∧ svmInUse = false then 4 else 0

/-- **The end of `Device::new`**: create the local memories, unless shared virtual memory is in
use, and the PEs. -/
def setup (kind : DeviceKind) (svmInUse client : Bool) (answers : ℕ → Bool) (taken : List ℕ)
    (entries : List PeEntry) : Except DeviceError PeTable :=
  match if svmInUse then .ok [] else createLocalMemories kind client entries with
  | .error e => .error e
  | .ok ms =>
    match addPes kind answers svmInUse 0 (entries.map scheduled)
        ⟨⟨fun _ => none, fun _ => none, []⟩, firstInterrupt kind svmInUse,
          List.range' 1 ms.length⟩ taken with
    | .error e => .error (.schedulerError e)
    | .ok (st, _) => .ok ⟨ms, st.scheduler⟩

/-! ### The PEs that are created -/

/-- The interrupt numbers that an entry uses up in the running count. -/
def width (entry : StatusPe) : ℕ :=
  1 + if entry.localMemory then 1 else 0

/-- The PEs of the entries from index `i` on, with the running count at `n` and the local
memories that are left. -/
def created (svmInUse : Bool) : ℕ → ℕ → List MemId → List StatusPe → List PE
  | _, _, _, [] => []
  | i, n, ms, entry :: entries =>
    let interruptId := Scheduler.interruptOf n entry
    { PE.new i entry.id entry.offset interruptId svmInUse with
      localMemory := if entry.localMemory then ms.head? else none } ::
      created svmInUse (i + 1) (interruptId + width entry)
        (if entry.localMemory then ms.tail else ms) entries

theorem length_created (svm : Bool) (i n : ℕ) (ms : List MemId) (entries : List StatusPe) :
    (created svm i n ms entries).length = entries.length := by
  induction entries generalizing i n ms with
  | nil => rfl
  | cons entry entries ih => rw [created, length_cons, length_cons, ih]

/-- The running count after some entries. -/
def guessAfter (first : ℕ) (pre : List StatusPe) : ℕ :=
  pre.foldl (fun n entry => Scheduler.interruptOf n entry + width entry) first

theorem created_getElem? {svm : Bool} {i n : ℕ} {ms : List MemId} {entries : List StatusPe}
    {k : ℕ} {entry : StatusPe} (h : entries[k]? = some entry) :
    (created svm i n ms entries)[k]? = some
      { PE.new (i + k) entry.id entry.offset
          (Scheduler.interruptOf (guessAfter n (entries.take k)) entry) svm with
        localMemory :=
          if entry.localMemory then ms[(entries.take k).countP StatusPe.localMemory]?
          else none } := by
  induction entries generalizing i n ms k with
  | nil => simp at h
  | cons e entries ih =>
    rw [created]
    cases k with
    | zero =>
      obtain rfl : e = entry := Option.some.inj h
      rw [getElem?_cons_zero, take_zero, countP_nil, ← head?_eq_getElem?]
      rfl
    | succ k =>
      rw [getElem?_cons_succ] at h ⊢
      rw [ih h, take_succ_cons, add_assoc i 1 k, add_comm 1 k]
      cases hl : e.localMemory with
      | false =>
        rw [countP_cons_of_neg (by simp [hl])]
        simp only [Bool.false_eq_true, if_false]
        rfl
      | true =>
        rw [countP_cons_of_pos hl]
        simp only [if_true, getElem?_tail]
        rfl

def queue (s : Scheduler) (id : PEId) : List PE :=
  (s.pes id).getD []

/-- **One entry**: its PE is appended to the queue of its type. -/
theorem addPe_eq (svm : Bool) (i : ℕ) (entry : StatusPe) (st : Scheduler.Setup) :
    ∃ st', Scheduler.addPe (fun _ => true) svm i entry st = .ok st' ∧
      st'.interruptId = Scheduler.interruptOf st.interruptId entry + width entry ∧
      st'.localMemories = (if entry.localMemory then st.localMemories.tail else st.localMemories) ∧
      (∀ id, queue st'.scheduler id = queue st.scheduler id ++ (if entry.id = id then
          [{ PE.new i entry.id entry.offset (Scheduler.interruptOf st.interruptId entry)
              svm with
            localMemory := if entry.localMemory then st.localMemories.head? else none }]
        else [])) ∧
      ∀ id, st'.scheduler.numPes id = st.scheduler.numPes id + if entry.id = id then 1 else 0 := by
  refine ⟨_, rfl, add_assoc _ _ _, rfl, fun id => ?_, fun id => ?_⟩
  · by_cases hi : entry.id = id
    · subst hi
      simp only [queue, Scheduler.push, Function.update_self, Option.getD_some, if_true]
      cases entry.localMemory <;> rfl
    · simp only [queue, Scheduler.push, Function.update_of_ne (Ne.symm hi), if_neg hi, append_nil]
  · by_cases hi : entry.id = id
    · subst hi
      simp only [Scheduler.numPes, Scheduler.push, Function.update_self, Option.getD_some, if_true]
    · simp only [Scheduler.numPes, Scheduler.push, Function.update_of_ne (Ne.symm hi),
        if_neg hi, add_zero]

variable {kind : DeviceKind} {answers : ℕ → Bool} {taken : List ℕ}

theorem register_eq_some {taken' : List ℕ} {n : ℕ}
    (h : register kind answers taken n = some taken') :
    taken' = taken ++ [registeredNumber n] ∧ (kind ≠ .sim → registeredNumber n ∉ taken) := by
  rw [register] at h
  split at h
  · simp at h
  next hf =>
    split at h
    · exact ⟨(Option.some.inj h).symm, fun hk hm => hf ⟨hk, hm⟩⟩
    · simp at h

/-- **The loop**: the PEs are appended to the queues, each to the one of its type, and their
interrupts to the registered ones, which on a device that is not simulated are new. -/
theorem addPes_spec {svm : Bool} {i : ℕ} {entries : List StatusPe} {st st' : Scheduler.Setup}
    {taken' : List ℕ} (h : addPes kind answers svm i entries st taken = .ok (st', taken')) :
    (∀ id, queue st'.scheduler id = queue st.scheduler id ++
      (created svm i st.interruptId st.localMemories entries).filter
        fun pe => decide (pe.typeId = id)) ∧
    (∀ id, st'.scheduler.numPes id = st.scheduler.numPes id +
      entries.countP fun entry => decide (entry.id = id)) ∧
    (kind ≠ .sim → ((created svm i st.interruptId st.localMemories entries).map
        (registeredNumber ·.interruptId)).Nodup ∧
      ∀ pe ∈ created svm i st.interruptId st.localMemories entries,
        registeredNumber pe.interruptId ∉ taken) := by
  induction entries generalizing i st taken with
  | nil =>
    obtain ⟨rfl, rfl⟩ := Prod.mk.inj (Except.ok.inj h)
    exact ⟨fun id => by simp [created], fun id => by simp, fun _ => by simp [created]⟩
  | cons entry entries ih =>
    obtain ⟨st₁, ha, hi, hm, hq, hnu⟩ := addPe_eq svm i entry st
    rw [addPes, ha] at h
    cases hr : register kind answers taken (Scheduler.interruptOf st.interruptId entry) with
    | none =>
      rw [hr] at h
      simp at h
    | some taken₁ =>
      rw [hr] at h
      obtain ⟨ht, hn⟩ := register_eq_some hr
      obtain ⟨ihqueue, ihnum, ihnew⟩ := ih h
      rw [hi, hm] at ihqueue ihnew
      refine ⟨fun id => ?_, fun id => ?_, fun hk => ?_⟩
      · rw [ihqueue, hq, created, filter_cons, append_assoc]
        by_cases hid : entry.id = id <;> simp [PE.new, hid]
      · rw [ihnum, hnu, countP_cons]
        by_cases hid : entry.id = id
        · simp only [hid, if_true, decide_true]
          omega
        · simp [hid]
      · obtain ⟨hno, hf⟩ := ihnew hk
        rw [created, map_cons, nodup_cons, forall_mem_cons]
        refine ⟨⟨fun hm => ?_, hno⟩, hn hk, fun pe hp ht' => ?_⟩
        · obtain ⟨pe, hp, heq⟩ := mem_map.mp hm
          refine hf pe hp ?_
          rw [ht, heq]
          exact mem_append_right _ (mem_singleton.mpr rfl)
        · refine hf pe hp ?_
          rw [ht]
          exact mem_append_left _ ht'

/-! ### Local memories of the entries -/

variable {client : Bool}

theorem createLocalMemory_eq_ok {l : MemoryArea} {m : LocalMemory}
    (h : createLocalMemory kind client l = .ok m) :
    m.dma.window = l ∧ GenericAllocator.new 0 l.size 1 = .ok m.allocator := by
  rw [createLocalMemory] at h
  split at h
  · simp at h
  next allocator hn =>
    split at h
    · split at h
      · obtain rfl := Except.ok.inj h
        exact ⟨rfl, hn⟩
      · simp at h
    · obtain rfl := Except.ok.inj h
      exact ⟨rfl, hn⟩

variable {entries : List PeEntry}

/-- **The first loop** creates one memory for each window, in the order of the entries. -/
theorem createLocalMemories_eq_ok {ms : List LocalMemory}
    (h : createLocalMemories kind client entries = .ok ms) {k : ℕ} {entry : PeEntry}
    (hen : entries[k]? = some entry) {l : MemoryArea} (hl : entry.localMemory = some l) :
    ∃ m, ms[(entries.take k).countP (·.localMemory.isSome)]? = some m ∧
      createLocalMemory kind client l = .ok m := by
  induction entries generalizing ms k with
  | nil => simp at hen
  | cons e entries ih =>
    rw [createLocalMemories] at h
    cases he : e.localMemory with
    | none =>
      rw [he] at h
      cases k with
      | zero =>
        obtain rfl : e = entry := Option.some.inj hen
        exact absurd (he.symm.trans hl) (by simp)
      | succ k =>
        rw [take_succ_cons, countP_cons_of_neg (by simp [he])]
        exact ih h hen
    | some l' =>
      rw [he] at h
      dsimp only at h
      split at h
      · simp at h
      next m hm =>
        split at h
        · simp at h
        next ms' hm' =>
          obtain rfl := Except.ok.inj h
          cases k with
          | zero =>
            obtain rfl : e = entry := Option.some.inj hen
            obtain rfl : l' = l := Option.mem_unique he hl
            exact ⟨m, rfl, hm⟩
          | succ k =>
            rw [take_succ_cons, countP_cons_of_pos (by simp [he]), getElem?_cons_succ]
            exact ih hm' hen

/-! ### Interrupts of the entries -/

def silent (entry : StatusPe) : Bool :=
  entry.interrupts.isEmpty

/-- The guess for an entry in terms of those before it, the nearest first: the number after the last
published one, or the first number, and on from there over the entries without one. -/
def guess (first : ℕ) (before : List StatusPe) : ℕ :=
  (match before.dropWhile silent with
    | entry :: _ => Scheduler.interruptOf 0 entry + width entry
    | [] => first) + ((before.takeWhile silent).map width).sum

theorem guess_cons_of_silent {first : ℕ} {entry : StatusPe} (before : List StatusPe)
    (h : entry.interrupts = []) :
    guess first (entry :: before) = guess first before + width entry := by
  have hs : silent entry = true := by rw [silent, h]; rfl
  simp only [guess, dropWhile_cons_of_pos hs, takeWhile_cons_of_pos hs, map_cons, sum_cons]
  omega

theorem guess_cons_of_published {first : ℕ} {entry : StatusPe} (before : List StatusPe) {n : ℕ}
    {rest : List ℕ} (h : entry.interrupts = n :: rest) :
    guess first (entry :: before) = n + width entry := by
  have hs : ¬silent entry = true := by rw [silent, h]; simp
  simp only [guess, dropWhile_cons_of_neg hs, takeWhile_cons_of_neg hs, Scheduler.interruptOf, h]
  rfl

theorem guessAfter_eq (first : ℕ) (pre : List StatusPe) :
    guessAfter first pre = guess first pre.reverse := by
  induction pre using List.reverseRecOn with
  | nil => rfl
  | append_singleton pre entry ih =>
    have hs : guessAfter first (pre ++ [entry]) =
        Scheduler.interruptOf (guessAfter first pre) entry + width entry := by
      rw [guessAfter, foldl_append]
      rfl
    rw [hs, ih, reverse_append, reverse_singleton, singleton_append]
    cases hi : entry.interrupts with
    | nil =>
      rw [guess_cons_of_silent _ hi, Scheduler.interruptOf, hi]
      rfl
    | cons n rest =>
      rw [guess_cons_of_published _ hi, Scheduler.interruptOf, hi]
      rfl

/-- The interrupt of an entry is not met by the one of another entry. -/
def NoClash (first : ℕ) (entries : List StatusPe) : Prop :=
  ∀ i j e e', i < j → entries[i]? = some e → entries[j]? = some e' →
    registeredNumber (Scheduler.interruptOf (guess first (entries.take i).reverse) e) ≠
      registeredNumber (Scheduler.interruptOf (guess first (entries.take j).reverse) e')

/-! ### The PE table -/

/-- The PE of the `k`-th entry has the memory for the window of this entry, if it has one. -/
def HasOwnMemory (kind : DeviceKind) (client : Bool) (entries : List PeEntry) (t : PeTable)
    (k : ℕ) (entry : PeEntry) (pe : PE) : Prop :=
  match entry.localMemory with
  | none => pe.localMemory = none
  | some l =>
    let own := (entries.take k).countP (·.localMemory.isSome)
    pe.localMemory = some (1 + own) ∧
      ∃ m, t.localMemories[own]? = some m ∧ createLocalMemory kind client l = .ok m ∧
        m.dma.window = l

/-- **The PE table is right** up to the interrupts: there is one PE for each entry, with its number,
in the queue of its type and in no other, and with its own local memory. -/
structure Filed (kind : DeviceKind) (client : Bool) (entries : List PeEntry) (t : PeTable) :
    Prop where
  pools : ∃ pes : List PE, pes.length = entries.length ∧
    (∀ id, queue t.scheduler id = pes.filter fun pe => decide (pe.typeId = id)) ∧
    ∀ k entry, entries[k]? = some entry → ∃ pe, pes[k]? = some pe ∧ pe.id = k ∧
      pe.typeId = entry.id ∧ pe.offset = entry.offset ∧
      HasOwnMemory kind client entries t k entry pe
  counts : ∀ id, t.scheduler.numPes id = entries.countP fun entry => decide (entry.id = id)

/-- No two PEs are registered for the same interrupt. -/
def NoSharedInterrupt (t : PeTable) : Prop :=
  ∀ id id' pe pe', pe ∈ queue t.scheduler id → pe' ∈ queue t.scheduler id' → pe.id ≠ pe'.id →
    registeredNumber pe.interruptId ≠ registeredNumber pe'.interruptId

theorem setup_eq_ok {t : PeTable} (h : setup kind false client answers taken entries = .ok t) :
    createLocalMemories kind client entries = .ok t.localMemories ∧
      ∃ st taken', addPes kind answers false 0 (entries.map scheduled)
        ⟨⟨fun _ => none, fun _ => none, []⟩, firstInterrupt kind false,
          List.range' 1 t.localMemories.length⟩ taken = .ok (st, taken') ∧
        t.scheduler = st.scheduler := by
  rw [setup, if_neg Bool.false_ne_true] at h
  split at h
  · simp at h
  next ms hm =>
    split at h
    · simp at h
    next st taken' ha =>
      obtain rfl := Except.ok.inj h
      exact ⟨hm, st, taken', ha, rfl⟩

def pesOf (kind : DeviceKind) (entries : List PeEntry) (t : PeTable) : List PE :=
  created false 0 (firstInterrupt kind false) (List.range' 1 t.localMemories.length)
    (entries.map scheduled)

theorem length_pesOf (kind : DeviceKind) (entries : List PeEntry) (t : PeTable) :
    (pesOf kind entries t).length = entries.length := by
  rw [pesOf, length_created, length_map]

theorem exists_pesOf (kind : DeviceKind) (t : PeTable) {k : ℕ} {entry : PeEntry}
    (he : entries[k]? = some entry) :
    ∃ pe, (pesOf kind entries t)[k]? = some pe ∧ pe.id = k ∧ pe.typeId = entry.id ∧
      pe.offset = entry.offset ∧
      pe.interruptId = Scheduler.interruptOf
        (guess (firstInterrupt kind false) ((entries.map scheduled).take k).reverse)
        (scheduled entry) ∧
      pe.localMemory =
        if entry.localMemory.isSome then
          (List.range' 1 t.localMemories.length)[(entries.take k).countP (·.localMemory.isSome)]?
        else none := by
  have hs : (entries.map scheduled)[k]? = some (scheduled entry) := by
    rw [getElem?_map, he]
    rfl
  refine ⟨_, created_getElem? hs, zero_add k, rfl, rfl, ?_, ?_⟩
  · rw [← guessAfter_eq]
    rfl
  · rw [← map_take, countP_map]
    rfl

/-- The interrupts with which the PEs of a table are registered. -/
def numbersOf (kind : DeviceKind) (entries : List PeEntry) (t : PeTable) : List ℕ :=
  (pesOf kind entries t).map (registeredNumber ·.interruptId)

theorem length_numbersOf (kind : DeviceKind) (entries : List PeEntry) (t : PeTable) :
    (numbersOf kind entries t).length = entries.length := by
  rw [numbersOf, length_map, length_pesOf]

theorem numbersOf_getElem? (kind : DeviceKind) (t : PeTable) {k : ℕ} {entry : PeEntry}
    (he : entries[k]? = some entry) :
    (numbersOf kind entries t)[k]? = some (registeredNumber (Scheduler.interruptOf
      (guess (firstInterrupt kind false) ((entries.map scheduled).take k).reverse)
      (scheduled entry))) := by
  obtain ⟨pe, hp, -, -, -, hi, -⟩ := exists_pesOf kind t he
  rw [numbersOf, getElem?_map, hp, ← hi]
  rfl

theorem nodup_numbersOf_iff (kind : DeviceKind) (entries : List PeEntry) (t : PeTable) :
    (numbersOf kind entries t).Nodup ↔
      NoClash (firstInterrupt kind false) (entries.map scheduled) := by
  rw [nodup_iff_getElem?_ne_getElem?, length_numbersOf]
  constructor
  · intro hne i j e e' hij he he'
    rw [getElem?_map, Option.map_eq_some_iff] at he he'
    obtain ⟨entry, hen, rfl⟩ := he
    obtain ⟨entry', hen', rfl⟩ := he'
    have hlt := (List.getElem?_eq_some_iff.mp hen').1
    have hn := hne i j hij hlt
    rw [numbersOf_getElem? kind t hen, numbersOf_getElem? kind t hen'] at hn
    exact fun heq => hn (congrArg some heq)
  · intro hc i j hij hlt
    have hen := getElem?_eq_getElem (hij.trans hlt)
    have hen' := getElem?_eq_getElem hlt
    rw [numbersOf_getElem? kind t hen, numbersOf_getElem? kind t hen']
    intro heq
    refine hc i j _ _ hij ?_ ?_ (Option.some.inj heq)
    · rw [getElem?_map, hen]
      rfl
    · rw [getElem?_map, hen']
      rfl

theorem setup_spec {t : PeTable} (h : setup kind false client answers taken entries = .ok t) :
    createLocalMemories kind client entries = .ok t.localMemories ∧
      (∀ id, queue t.scheduler id =
        (pesOf kind entries t).filter fun pe => decide (pe.typeId = id)) ∧
      (∀ id, t.scheduler.numPes id = entries.countP fun entry => decide (entry.id = id)) ∧
      (kind ≠ .sim → (numbersOf kind entries t).Nodup) := by
  obtain ⟨hm, st, taken', ha, hs⟩ := setup_eq_ok h
  obtain ⟨hq, hnu, hn⟩ := addPes_spec ha
  refine ⟨hm, fun id => ?_, fun id => ?_, fun hk => (hn hk).1⟩
  · rw [hs, hq]
    rfl
  · rw [hs, hnu, countP_map]
    exact zero_add _

section

variable {kind : DeviceKind} {client : Bool} {answers : ℕ → Bool} {taken : List ℕ}
  {entries : List PeEntry} {t : PeTable}
  (h : setup kind false client answers taken entries = .ok t)

include h

/-- **The queues and the local memories are right**, whatever the entries are. -/
theorem filed_of_setup : Filed kind client entries t := by
  obtain ⟨hms, hq, hn, -⟩ := setup_spec h
  refine ⟨⟨pesOf kind entries t, length_pesOf kind entries t, hq, fun k entry he => ?_⟩, hn⟩
  obtain ⟨pe, hp, hi, ht, ho, -, hme⟩ := exists_pesOf kind t he
  refine ⟨pe, hp, hi, ht, ho, ?_⟩
  rw [HasOwnMemory]
  cases hl : entry.localMemory with
  | none =>
    rw [hl] at hme
    exact hme
  | some l =>
    obtain ⟨m, hm, hc⟩ := createLocalMemories_eq_ok hms he hl
    have hlt := (List.getElem?_eq_some_iff.mp hm).1
    rw [hl, Option.isSome_some, if_pos rfl, getElem?_range' hlt] at hme
    refine ⟨by rw [hme, one_mul], m, hm, hc, (createLocalMemory_eq_ok hc).1⟩

theorem noSharedInterrupt_iff_nodup : NoSharedInterrupt t ↔ (numbersOf kind entries t).Nodup := by
  obtain ⟨-, hq, -, -⟩ := setup_spec h
  have hm : ∀ pe id, pe ∈ queue t.scheduler id ↔ pe ∈ pesOf kind entries t ∧ pe.typeId = id :=
    fun pe id => by rw [hq, mem_filter, decide_eq_true_iff]
  have hid : ∀ {k : ℕ} {pe : PE}, (pesOf kind entries t)[k]? = some pe → pe.id = k := by
    intro k pe hp
    have hlt := (List.getElem?_eq_some_iff.mp hp).1
    rw [length_pesOf] at hlt
    obtain ⟨pe', hp', hid, -⟩ := exists_pesOf kind t (getElem?_eq_getElem hlt)
    obtain rfl := Option.mem_unique hp hp'
    exact hid
  rw [numbersOf, List.Nodup, pairwise_map, pairwise_iff_getElem]
  constructor
  · intro hne i j hi hj hij
    refine hne _ _ _ _ ((hm _ _).mpr ⟨getElem_mem hi, rfl⟩)
      ((hm _ _).mpr ⟨getElem_mem hj, rfl⟩) ?_
    rw [hid (getElem?_eq_getElem hi), hid (getElem?_eq_getElem hj)]
    exact hij.ne
  · intro hne id id' pe pe' hp hp' hids
    obtain ⟨i, hi, rfl⟩ := getElem_of_mem ((hm _ _).mp hp).1
    obtain ⟨j, hj, rfl⟩ := getElem_of_mem ((hm _ _).mp hp').1
    rw [hid (getElem?_eq_getElem hi), hid (getElem?_eq_getElem hj)] at hids
    obtain hij | hij := lt_or_gt_of_ne hids
    · exact hne i j hi hj hij
    · exact (hne j i hj hi hij).symm

/-- **Shared interrupts**: there are none if the driver refuses them, and otherwise it depends
on the entries. -/
theorem noSharedInterrupt_iff : NoSharedInterrupt t ↔
    kind ≠ .sim ∨ NoClash (firstInterrupt kind false) (entries.map scheduled) := by
  rw [noSharedInterrupt_iff_nodup h, ← nodup_numbersOf_iff kind entries t]
  exact (or_iff_right_of_imp (setup_spec h).2.2.2).symm

/-- **The PE table** is right, with no interrupt shared, exactly if the device is not simulated or
no guess meets the number of another entry. -/
theorem setup_correct_iff :
    (Filed kind client entries t ∧ NoSharedInterrupt t) ↔
      kind ≠ .sim ∨ NoClash (firstInterrupt kind false) (entries.map scheduled) := by
  rw [noSharedInterrupt_iff h]
  exact and_iff_right (filed_of_setup h)

end

/-- An entry without an interrupt, followed by one that publishes interrupt `n`. -/
def guessThenPublished (l : Option MemoryArea) (n : ℕ) : List PeEntry :=
  [⟨"", 14, 0, 65536, l, []⟩, ⟨"", 14, 131072, 65536, none, [⟨n, []⟩]⟩]

theorem exists_of_isOk {r : Except DeviceError PeTable} (h : r.isOk = true) : ∃ t, r = .ok t := by
  cases r with
  | error e => exact absurd h Bool.false_ne_true
  | ok t => exact ⟨t, rfl⟩

theorem setup_correct_zynq :
    ∃ t, setup .zynq false false (fun _ => true) [] (guessThenPublished (some ⟨65536, 4096⟩) 7) =
        .ok t ∧
      Filed .zynq false (guessThenPublished (some ⟨65536, 4096⟩) 7) t ∧ NoSharedInterrupt t := by
  obtain ⟨t, h⟩ := exists_of_isOk (r := setup .zynq false false (fun _ => true) []
    (guessThenPublished (some ⟨65536, 4096⟩) 7)) (by decide)
  exact ⟨t, h, (setup_correct_iff h).mpr (.inl (by decide))⟩

/-- **The simulation server accepts a number twice**: the first PE's guess is the number the second
PE publishes. -/
theorem simulated_pes_share_interrupt :
    ((guessThenPublished none 0).flatMap fun pe => pe.interrupts.map (·.mapping)).Nodup ∧
      ∃ t, setup .sim false true (fun _ => true) [] (guessThenPublished none 0) = .ok t ∧
        ¬ NoSharedInterrupt t := by
  obtain ⟨t, h⟩ := exists_of_isOk (r := setup .sim false true (fun _ => true) []
    (guessThenPublished none 0)) (by decide)
  refine ⟨by decide, t, h, fun hne => ?_⟩
  obtain hkind | hclash := (noSharedInterrupt_iff h).mp hne
  · exact hkind rfl
  · exact hclash 0 1 _ _ zero_lt_one rfl rfl rfl

end Tapasco.DeviceSetup
