import Tapasco.Lib.Runs
import Tapasco.Lib.Threads

/-!
# Interrupts of the Simulation

The server of the simulation counts the interrupts of a design. `register_interrupt` creates a
`SimInterrupt` for a file descriptor, whose coroutine waits for rising edges of a port of the
design and adds one to a counter for each; `get_interrupt_status` reads the counter, sets it to
zero and reports what it has read. The coroutines run in the thread of the simulator, the
requests in threads of their own, and a lock protects each access to the counter. This module
embeds `SimInterrupt.py` and the three requests of `SimServer.py` at the level of these accesses.

Reading the counter and setting it to zero are two accesses, for each of which the request looks
up the file descriptor and takes the lock. What happens in between is lost or reported twice.
Registering and deregistering are one step each.

Next to the state of the server the model keeps the number of edges that each coroutine has
seen, and for each request the interrupt whose counter it has read. A count is taken as reported
when the counter has been set to zero, as nothing can change it then.
-/

open Threads List

namespace Tapasco.Sim

/-- The thread that has the lock of a counter: the simulator's, or that of a request. -/
inductive Holder where
  | simulator
  | request (t : ℕ)
  deriving DecidableEq

/-- Where the coroutine of an interrupt is. -/
inductive Task where
  /-- In the request queue. -/
  | created
  /-- `await RisingEdge(getattr(self.dut, self._interrupt_handle))`. -/
  | waiting
  /-- `self._counter_lock.acquire()` in `assert_interrupt`. -/
  | acquire
  /-- `self._counter += 1`, first half. -/
  | load
  /-- `self._counter += 1`, second half. -/
  | store (n : ℕ)
  /-- `self._counter_lock.release()`. -/
  | release
  /-- The end of the coroutine. -/
  | finished
  /-- The design has no port of this name. -/
  | raised
  deriving DecidableEq

/-- The coroutine is in `assert_interrupt`. -/
def Task.asserts : Task → Bool
  | .acquire | .load | .store _ | .release => true
  | _ => false

/-- The name of a port of the design. -/
abbrev Port := List Char

/-- A `SimInterrupt`, with the number of edges that its coroutine has seen. -/
structure SimInterrupt where
  counter : ℕ
  lock : Option Holder
  interruptHandle : Port
  enabled : Bool
  shouldExit : Bool
  task : Task
  edges : ℕ
  deriving DecidableEq

namespace SimInterrupt

def new (interruptHandle : Port) : SimInterrupt where
  counter := 0
  lock := none
  interruptHandle
  enabled := true
  shouldExit := false
  task := .created
  edges := 0

def deregisterInterrupt (x : SimInterrupt) : SimInterrupt :=
  { x with enabled := false, shouldExit := true }

/-- The head of the loop of `interrupt_coroutine`, in a design with the given ports. -/
def await (dut : List Port) (x : SimInterrupt) : SimInterrupt :=
  { x with
    task :=
      if x.shouldExit then .finished
      else if x.interruptHandle ∈ dut then .waiting else .raised }

def start (dut : List Port) (x : SimInterrupt) : SimInterrupt :=
  if x.task = .created then x.await dut else x

/-- The coroutine sees a rising edge. -/
def risingEdge (dut : List Port) (port : Port) (x : SimInterrupt) : SimInterrupt :=
  if x.task = .waiting ∧ x.interruptHandle = port then
    if x.enabled then { x with task := .acquire, edges := x.edges + 1 } else x.await dut
  else x

/-- A step of the coroutine in `assert_interrupt`. -/
def assertInterrupt (dut : List Port) (x : SimInterrupt) : SimInterrupt :=
  match x.task with
  | .acquire => if x.lock = none then { x with lock := some .simulator, task := .load } else x
  | .load => { x with task := .store x.counter }
  | .store n => { x with counter := n + 1, task := .release }
  | .release => { x with lock := none }.await dut
  | _ => x

/-- `self._counter_lock.acquire()` in a request. -/
def acquire (t : ℕ) (x : SimInterrupt) : SimInterrupt :=
  { x with lock := some (.request t) }

/-- `self._counter_lock.release()` in a request. -/
def release (x : SimInterrupt) : SimInterrupt :=
  { x with lock := none }

/-- `self._counter = 0`. -/
def clear (x : SimInterrupt) : SimInterrupt :=
  { x with counter := 0 }

end SimInterrupt

/-- Where a request is. `obj` is the interrupt it works on, and `src` the one whose counter it
has read. -/
inductive Pc where
  /-- `if request.fd in self.interrupts.keys()`. -/
  | contains
  /-- `self.interrupts[request.fd]`. -/
  | lookup
  /-- `acquire` in `get_interrupt_count`. -/
  | acquireCount (obj : ℕ)
  /-- `tmp = self._counter`. -/
  | read (obj : ℕ)
  /-- `release` in `get_interrupt_count`. -/
  | releaseCount (src ints : ℕ)
  /-- `self.interrupts[request.fd]`, the second time. -/
  | lookupAgain (src ints : ℕ)
  /-- `acquire` in `clear_interrupt`. -/
  | acquireClear (obj src ints : ℕ)
  /-- `self._counter = 0`. -/
  | clear (obj src ints : ℕ)
  /-- `release` in `clear_interrupt`. -/
  | releaseClear (obj src ints : ℕ)
  /-- The response has the number of interrupts. -/
  | okay (src ints : ℕ)
  /-- The response says that the interrupt is not registered. -/
  | error
  /-- A lookup has raised `KeyError`. -/
  | keyError

/-- A request of `get_interrupt_status`. -/
structure StatusRequest where
  fd : ℤ
  pc : Pc

/-- The server, for a design with the given ports. `objects` are the interrupts ever registered, in
order, and `interrupts` says which of them a file descriptor has. -/
structure Server where
  dut : List Port
  interrupts : ℤ → Option ℕ
  objects : List SimInterrupt
  requests : List StatusRequest

namespace Server

def new (dut : List Port) : Server where
  dut
  interrupts := fun _ => none
  objects := []
  requests := []

def onObject (s : Server) (obj : ℕ) (f : SimInterrupt → SimInterrupt) : Server :=
  { s with objects := s.objects.modify obj f }

def intText (n : ℤ) : List Char :=
  if n < 0 then '-' :: Nat.toDigits 10 n.natAbs else Nat.toDigits 10 n.natAbs

/-- The port that the server watches for an interrupt. -/
def portOf (interruptId : ℤ) : Port :=
  "ext_intr_PE_".toList ++ intText interruptId ++ "_0".toList

def registerInterrupt (s : Server) (fd interruptId : ℤ) : Server :=
  { s with
    interrupts := Function.update s.interrupts fd (some s.objects.length)
    objects :=
      (match s.interrupts fd with
      | some obj => s.objects.modify obj SimInterrupt.deregisterInterrupt
      | none => s.objects) ++ [SimInterrupt.new (portOf interruptId)] }

def deregisterInterrupt (s : Server) (fd : ℤ) : Server :=
  { s with interrupts := Function.update s.interrupts fd none }

def goto (s : Server) (t : ℕ) (r : StatusRequest) (pc : Pc) : Server :=
  { s with requests := s.requests.set t { r with pc } }

def isFree (s : Server) (obj : ℕ) : Bool :=
  (s.objects[obj]?).any fun x => x.lock = none

def counterOf (s : Server) (obj : ℕ) : ℕ :=
  (s.objects[obj]?).elim 0 SimInterrupt.counter

/-- A step of the request with number `t`, in `get_interrupt_status`. -/
def requestStep (s : Server) (t : ℕ) (r : StatusRequest) : Server :=
  match r.pc with
  | .contains => s.goto t r (if (s.interrupts r.fd).isSome then .lookup else .error)
  | .lookup =>
    match s.interrupts r.fd with
    | some obj => s.goto t r (.acquireCount obj)
    | none => s.goto t r .keyError
  | .acquireCount obj =>
    if s.isFree obj then (s.onObject obj (.acquire t)).goto t r (.read obj) else s
  | .read obj => s.goto t r (.releaseCount obj (s.counterOf obj))
  | .releaseCount src ints => (s.onObject src .release).goto t r (.lookupAgain src ints)
  | .lookupAgain src ints =>
    match s.interrupts r.fd with
    | some obj => s.goto t r (.acquireClear obj src ints)
    | none => s.goto t r .keyError
  | .acquireClear obj src ints =>
    if s.isFree obj then (s.onObject obj (.acquire t)).goto t r (.clear obj src ints) else s
  | .clear obj src ints => (s.onObject obj .clear).goto t r (.releaseClear obj src ints)
  | .releaseClear obj src ints => (s.onObject obj .release).goto t r (.okay src ints)
  | .okay _ _ | .error | .keyError => s

/-- A registration, a deregistration, a new request, a step of a request, the start of a coroutine,
a rising edge of a port, or a step of a coroutine. -/
inductive Action where
  | register (fd interruptId : ℤ)
  | deregister (fd : ℤ)
  | request (fd : ℤ)
  | step (t : ℕ)
  | start (obj : ℕ)
  | edge (port : Port)
  | assert (obj : ℕ)

/-- The simulator executes a coroutine, so its time stands still. -/
def isAsserting (s : Server) : Bool :=
  s.objects.any fun x => x.task.asserts

/-- **One action.** -/
def step (s : Server) : Action → Server
  | .register fd interruptId => s.registerInterrupt fd interruptId
  | .deregister fd => s.deregisterInterrupt fd
  | .request fd => { s with requests := s.requests ++ [⟨fd, .contains⟩] }
  | .step t =>
    match s.requests[t]? with
    | some r => s.requestStep t r
    | none => s
  | .start obj => s.onObject obj (.start s.dut)
  | .edge port =>
    if s.isAsserting then s
    else { s with objects := s.objects.map (.risingEdge s.dut port) }
  | .assert obj => s.onObject obj (.assertInterrupt s.dut)

end Server

/-! ### One interrupt -/

def Task.critical : Task → Bool
  | .load | .store _ | .release => true
  | _ => false

/-- The number of edges that the coroutine has seen and not counted. -/
def Task.uncounted : Task → ℕ
  | .acquire | .load | .store _ => 1
  | _ => 0

namespace SimInterrupt

/-- The coroutine has the lock where its code says so, and what it has loaded is still the
counter. -/
structure Sound (x : SimInterrupt) : Prop where
  critical : x.task.critical = true ↔ x.lock = some .simulator
  loaded : ∀ n, x.task = .store n → x.counter = n

/-- The edges that are in the counter, or will be next. -/
def held (x : SimInterrupt) : ℕ :=
  x.counter + x.task.uncounted

/-- An operation that neither requests nor the counting can be disturbed by. -/
structure Quiet (f : SimInterrupt → SimInterrupt) : Prop where
  sound : ∀ x, x.Sound → (f x).Sound
  lock : ∀ x t, x.Sound → x.lock = some (.request t) → (f x).lock = some (.request t)
  held : ∀ x, x.Sound → (f x).held + x.edges = x.held + (f x).edges

theorem sound_new (port : Port) : (new port).Sound :=
  ⟨by simp [new, Task.critical], by simp [new]⟩

theorem Sound.await {x : SimInterrupt} (hl : x.lock ≠ some .simulator) (dut : List Port) :
    (x.await dut).Sound := by
  rw [SimInterrupt.await]
  split
  · exact ⟨by simpa [Task.critical] using hl, by simp⟩
  · split <;> exact ⟨by simpa [Task.critical] using hl, by simp⟩

theorem held_await (x : SimInterrupt) (dut : List Port) : (x.await dut).held = x.counter := by
  rw [await, held]
  split
  · rfl
  · split <;> rfl

theorem Sound.lock_ne {x : SimInterrupt} (h : x.Sound) (ht : x.task.critical = false) :
    x.lock ≠ some .simulator := fun hl =>
  absurd (h.critical.mpr hl) (by simp [ht])

theorem quiet_id : Quiet id :=
  ⟨fun _ h => h, fun _ _ _ h => h, fun _ _ => rfl⟩

theorem Quiet.ite {f : SimInterrupt → SimInterrupt} (hf : Quiet f) (p : Prop) [Decidable p] :
    Quiet (if p then f else id) := by
  split
  · exact hf
  · exact quiet_id

theorem quiet_deregisterInterrupt : Quiet deregisterInterrupt :=
  ⟨fun _ h => ⟨h.critical, h.loaded⟩, fun _ _ _ h => h, fun _ _ => rfl⟩

theorem quiet_start (dut : List Port) : Quiet (start dut) := by
  refine ⟨fun x h => ?_, fun x t h hl => ?_, fun x h => ?_⟩ <;> rw [start] <;> split
  · rename_i ht
    exact Sound.await (h.lock_ne (by rw [ht]; rfl)) dut
  · exact h
  · exact hl
  · exact hl
  · rename_i ht
    rw [held_await, held, ht]
    rfl
  · rfl

theorem quiet_risingEdge (dut : List Port) (port : Port) : Quiet (risingEdge dut port) := by
  refine ⟨fun x h => ?_, fun x t h hl => ?_, fun x h => ?_⟩ <;> rw [risingEdge] <;> split
  · rename_i he
    have hl := h.lock_ne (by rw [he.1]; rfl)
    split
    · exact ⟨by simpa [Task.critical] using hl, by simp⟩
    · exact Sound.await hl dut
  · exact h
  · split <;> exact hl
  · exact hl
  · rename_i he
    split
    · simp only [held, he.1, Task.uncounted]
      omega
    · rw [held_await, held, he.1]
      rfl
  · rfl

theorem quiet_assertInterrupt (dut : List Port) : Quiet (assertInterrupt dut) := by
  refine ⟨fun x h => ?_, fun x t h hlo => ?_, fun x h => ?_⟩
  · rw [assertInterrupt]
    split
    · split
      · exact ⟨by simp [Task.critical], by simp⟩
      · exact h
    · rename_i ht
      have hlo := h.critical.mp (by rw [ht]; rfl)
      exact ⟨by simpa [Task.critical] using hlo, by simp⟩
    · rename_i ht
      have hlo := h.critical.mp (by rw [ht]; rfl)
      exact ⟨by simpa [Task.critical] using hlo, by simp⟩
    · exact Sound.await (by simp) dut
    · exact h
  · have hc : x.task.critical = false := by
      rw [← Bool.not_eq_true, h.critical, hlo]
      simp
    rw [assertInterrupt]
    split
    · rw [if_neg (by simp [hlo])]
      exact hlo
    all_goals first
      | exact hlo
      | exact absurd hc (by simp [*, Task.critical])
  · rw [assertInterrupt]
    split
    · rename_i ht
      split
      · simp [held, ht, Task.uncounted]
      · rfl
    · rename_i ht
      simp [held, ht, Task.uncounted]
    · rename_i n ht
      have hl := h.loaded n ht
      simp only [held, ht, Task.uncounted]
      omega
    · rename_i ht
      rw [held_await, held, ht]
      rfl
    · rfl

end SimInterrupt

/-! ### The requests -/

/-- The interrupt whose lock the request has. -/
def Pc.locks : Pc → Option ℕ
  | .read obj | .clear obj _ _ | .releaseClear obj _ _ => some obj
  | .releaseCount src _ => some src
  | _ => none

/-- The interrupts that the request knows. -/
def Pc.refs : Pc → List ℕ
  | .acquireCount obj | .read obj => [obj]
  | .releaseCount src _ | .lookupAgain src _ | .okay src _ => [src]
  | .acquireClear obj src _ | .clear obj src _ | .releaseClear obj src _ => [obj, src]
  | _ => []

/-- What the request has reported of an interrupt. -/
def Pc.reports (obj : ℕ) : Pc → ℕ
  | .releaseClear _ src ints | .okay src ints => if src = obj then ints else 0
  | _ => 0

namespace Server

/-- The sum of the counts that were reported of an interrupt. -/
def reported (s : Server) (obj : ℕ) : ℕ :=
  total (fun r => r.pc.reports obj) s.requests

/-- **No interrupt is lost**: the reported counts and the counter, with the edge that is being
counted, are all edges that were seen. -/
def Conserved (s : Server) : Prop :=
  ∀ (obj : ℕ) (x : SimInterrupt), s.objects[obj]? = some x → s.reported obj + x.held = x.edges

/-- The invariant: the locks are with those who use the counters, and the interrupts that
requests and file descriptors refer to exist. -/
structure Inv (s : Server) : Prop where
  sound : ∀ x ∈ s.objects, x.Sound
  locked : ∀ (t : ℕ) (r : StatusRequest) (obj : ℕ), s.requests[t]? = some r →
    r.pc.locks = some obj → ∃ x : SimInterrupt, s.objects[obj]? = some x ∧
      x.lock = some (.request t)
  refs : ∀ r ∈ s.requests, ∀ obj ∈ r.pc.refs, obj < s.objects.length
  registered : ∀ fd obj, s.interrupts fd = some obj → obj < s.objects.length

theorem inv_new (dut : List Port) : (new dut).Inv :=
  ⟨by simp [new], by simp [new], by simp [new], by simp [new]⟩

theorem conserved_new (dut : List Port) : (new dut).Conserved := by
  intro obj x hx
  exact absurd hx (by simp [new])

theorem getElem?_onObject (s : Server) (obj : ℕ) (f : SimInterrupt → SimInterrupt) (o : ℕ) :
    (s.onObject obj f).objects[o]? = s.objects[o]?.map (if obj = o then f else id) := by
  rw [onObject, getElem?_modify]
  cases s.objects[o]? with
  | none => rfl
  | some x => split <;> rfl

theorem getElem?_registerInterrupt {s : Server} {obj : ℕ} (ho : obj < s.objects.length)
    (fd interruptId : ℤ) :
    (s.registerInterrupt fd interruptId).objects[obj]? =
      s.objects[obj]?.map (if s.interrupts fd = some obj then .deregisterInterrupt else id) := by
  rw [registerInterrupt]
  cases hf : s.interrupts fd with
  | none =>
    rw [if_neg (by simp), Option.map_id]
    exact getElem?_append_left ho
  | some o =>
    simp only [Option.some.injEq]
    rw [← getElem?_onObject, onObject]
    exact getElem?_append_left (by rw [length_modify]; exact ho)

section Quiet

variable {s s' : Server} {f : ℕ → SimInterrupt → SimInterrupt}
  (hf : ∀ o, SimInterrupt.Quiet (f o))
  (hobjects : ∀ o : ℕ, s'.objects[o]? = s.objects[o]?.map (f o))
  (hrequests : s'.requests = s.requests)

include hf hobjects hrequests

theorem Inv.quiet (hi : s'.interrupts = s.interrupts) (h : s.Inv) : s'.Inv := by
  have hl : s'.objects.length = s.objects.length := eq_of_forall_ge_iff fun n => by
    rw [← getElem?_eq_none_iff, ← getElem?_eq_none_iff, hobjects, Option.map_eq_none_iff]
  refine ⟨fun x hx => ?_, fun t r obj hr hloc => ?_, ?_, ?_⟩
  · obtain ⟨o, ho⟩ := getElem?_of_mem hx
    rw [hobjects] at ho
    obtain ⟨y, hy, rfl⟩ := Option.map_eq_some_iff.mp ho
    exact (hf o).sound y (h.sound y (mem_of_getElem? hy))
  · obtain ⟨x, hx, hlo⟩ := h.locked t r obj (hrequests ▸ hr) hloc
    refine ⟨f obj x, by rw [hobjects, hx]; rfl, ?_⟩
    exact (hf obj).lock x t (h.sound x (mem_of_getElem? hx)) hlo
  · rw [hrequests, hl]
    exact h.refs
  · rw [hi, hl]
    exact h.registered

theorem Conserved.quiet (hi : s.Inv) (h : s.Conserved) : s'.Conserved := by
  intro obj x hx
  rw [hobjects] at hx
  obtain ⟨y, hy, rfl⟩ := Option.map_eq_some_iff.mp hx
  have hh := (hf obj).held y (hi.sound y (mem_of_getElem? hy))
  have ho := h obj y hy
  rw [reported, hrequests, ← reported]
  omega

end Quiet

theorem onObject_id (s : Server) (obj : ℕ) : s.onObject obj id = s := by
  rw [onObject, modify_id]

section Advance

variable {s : Server} {t : ℕ} {r : StatusRequest} (hr : s.requests[t]? = some r) (obj : ℕ)
  (f : SimInterrupt → SimInterrupt) (pc : Pc)

include hr

theorem Inv.advance (h : s.Inv) (hs : ∀ x, s.objects[obj]? = some x → (f x).Sound)
    (hot : ∀ x u, s.objects[obj]? = some x → u ≠ t → x.lock = some (.request u) →
      (f x).lock = some (.request u))
    (hloc : ∀ o, pc.locks = some o →
      o = obj ∧ ∃ x, s.objects[obj]? = some x ∧ (f x).lock = some (.request t))
    (hr : ∀ o ∈ pc.refs, o < s.objects.length) : ((s.onObject obj f).goto t r pc).Inv := by
  have hobjects : ∀ o : ℕ, ((s.onObject obj f).goto t r pc).objects[o]? =
      s.objects[o]?.map (if obj = o then f else id) := getElem?_onObject s obj f
  have hl : ((s.onObject obj f).goto t r pc).objects.length = s.objects.length := length_modify ..
  refine ⟨fun x hx => ?_, fun u d o hd hlo => ?_, fun d hd o ho => ?_, ?_⟩
  · obtain ⟨o, ho⟩ := getElem?_of_mem hx
    rw [hobjects] at ho
    obtain ⟨y, hy, rfl⟩ := Option.map_eq_some_iff.mp ho
    split
    · rename_i heq
      exact hs y (heq ▸ hy)
    · exact h.sound y (mem_of_getElem? hy)
  · rcases getElem?_set_cases hd with ⟨rfl, rfl⟩ | ⟨hut, hd⟩
    · obtain ⟨rfl, x, hx, hlock⟩ := hloc o hlo
      exact ⟨f x, by rw [hobjects, hx, if_pos rfl]; rfl, hlock⟩
    · obtain ⟨x, hx, hlock⟩ := h.locked u d o hd hlo
      refine ⟨_, by rw [hobjects, hx]; rfl, ?_⟩
      split
      · rename_i heq
        exact hot x u (heq ▸ hx) hut hlock
      · exact hlock
  · rw [hl]
    rcases mem_or_eq_of_mem_set hd with hd | rfl
    · exact h.refs d hd o ho
    · exact hr o ho
  · rw [hl]
    exact h.registered

theorem Inv.goto (h : s.Inv) (hl : ∀ o, pc.locks = some o → r.pc.locks = some o)
    (hre : ∀ o ∈ pc.refs, o < s.objects.length) : (s.goto t r pc).Inv := by
  have ha : ∀ obj, (∀ o, pc.locks = some o → o = obj ∧ ∃ x, s.objects[obj]? = some x ∧
      (id x).lock = some (.request t)) → (s.goto t r pc).Inv := by
    intro obj hloc
    have hi := h.advance hr obj id pc
      (fun x hx => h.sound x (mem_of_getElem? hx)) (fun _ _ _ _ hlo => hlo) hloc hre
    rwa [onObject_id] at hi
  cases hpc : pc.locks with
  | none => exact ha 0 fun o ho => absurd (hpc.symm.trans ho) (by simp)
  | some obj =>
    refine ha obj fun o ho => ⟨Option.mem_unique ho hpc, ?_⟩
    exact h.locked t r obj hr (hl obj hpc)

theorem reported_goto (o : ℕ) :
    (s.goto t r pc).reported o + r.pc.reports o = s.reported o + pc.reports o :=
  total_set (fun r => r.pc.reports o) hr

theorem Conserved.advance (h : s.Conserved) (hf : ∀ x, (f x).held = x.held ∧ (f x).edges = x.edges)
    (hpc : ∀ o, pc.reports o = r.pc.reports o) : ((s.onObject obj f).goto t r pc).Conserved := by
  intro o x hx
  have hob : s.objects[o]?.map (if obj = o then f else id) = some x :=
    (getElem?_onObject s obj f o).symm.trans hx
  obtain ⟨y, hy, rfl⟩ := Option.map_eq_some_iff.mp hob
  have hs : ((s.onObject obj f).goto t r pc).reported o = s.reported o := by
    have hre := reported_goto (s := s.onObject obj f) hr pc o
    rw [hpc o] at hre
    exact add_right_cancel hre
  have ho := h o y hy
  rw [hs]
  split
  · rw [(hf y).1, (hf y).2]
    exact ho
  · exact ho

theorem Conserved.goto (h : s.Conserved) (hpc : ∀ o, pc.reports o = r.pc.reports o) :
    (s.goto t r pc).Conserved := by
  have hc := h.advance hr 0 id pc (fun _ => ⟨rfl, rfl⟩) hpc
  rwa [onObject_id] at hc

end Advance

/-! ### A step of a request -/

theorem counterOf_eq {s : Server} {obj : ℕ} {x : SimInterrupt} (hx : s.objects[obj]? = some x) :
    s.counterOf obj = x.counter := by
  rw [counterOf, hx]
  rfl

section RequestStep

variable {s : Server} {t : ℕ} {r : StatusRequest} (hr : s.requests[t]? = some r) {obj : ℕ}
  {x : SimInterrupt} (hx : s.objects[obj]? = some x)

include hx in
theorem lock_of_isFree (hf : s.isFree obj = true) : x.lock = none := by
  rw [isFree, hx, Option.any_some, decide_eq_true_eq] at hf
  exact hf

include hr

include hx in
theorem Inv.lock_eq (h : s.Inv) (hl : r.pc.locks = some obj) : x.lock = some (.request t) := by
  obtain ⟨y, hy, hlo⟩ := h.locked t r obj hr hl
  obtain rfl : x = y := Option.mem_unique hx hy
  exact hlo

theorem Inv.acquire (h : s.Inv) {pc : Pc} (hf : s.isFree obj = true)
    (hl : ∀ o, pc.locks = some o → o = obj) (hre : ∀ o ∈ pc.refs, o < s.objects.length) :
    ((s.onObject obj (.acquire t)).goto t r pc).Inv := by
  refine h.advance hr obj _ pc (fun x hx => ?_) (fun x u hx _ hlo => ?_) (fun o ho => ?_) hre
  · have hs := h.sound x (mem_of_getElem? hx)
    have hc := hs.critical
    rw [lock_of_isFree hx hf] at hc
    exact ⟨by simpa [SimInterrupt.acquire] using hc, hs.loaded⟩
  · exact absurd ((lock_of_isFree hx hf).symm.trans hlo) (by simp)
  · cases hx : s.objects[obj]? with
    | none => exact absurd hf (by simp [isFree, hx])
    | some x => exact ⟨hl o ho, x, rfl, rfl⟩

theorem Inv.release (h : s.Inv) {pc : Pc} (hl : r.pc.locks = some obj) (hn : pc.locks = none)
    (hre : ∀ o ∈ pc.refs, o < s.objects.length) : ((s.onObject obj .release).goto t r pc).Inv := by
  refine h.advance hr obj _ pc (fun x hx => ?_) (fun x u hx hut hlo => ?_) (fun o ho => ?_) hre
  · have hs := h.sound x (mem_of_getElem? hx)
    have hc := hs.critical
    rw [h.lock_eq hr hx hl] at hc
    exact ⟨by simpa [SimInterrupt.release] using hc, hs.loaded⟩
  · rw [h.lock_eq hr hx hl, Option.some.injEq, Holder.request.injEq] at hlo
    exact absurd hlo.symm hut
  · exact absurd (hn.symm.trans ho) (by simp)

theorem Inv.clear (h : s.Inv) {pc : Pc} (hl : r.pc.locks = some obj)
    (hpc : pc.locks = some obj) (hre : ∀ o ∈ pc.refs, o < s.objects.length) :
    ((s.onObject obj .clear).goto t r pc).Inv := by
  refine h.advance hr obj _ pc (fun x hx => ?_) (fun x u hx _ hlo => hlo) (fun o ho => ?_) hre
  · have hs := h.sound x (mem_of_getElem? hx)
    refine ⟨hs.critical, fun n hn => ?_⟩
    -- the coroutine would have the lock
    have hlo := hs.critical.mp (by rw [show x.task = .store n from hn]; rfl)
    exact absurd ((h.lock_eq hr hx hl).symm.trans hlo) (by simp)
  · exact ⟨Option.mem_unique ho hpc, h.locked t r obj hr hl⟩

theorem Inv.requestStep (h : s.Inv) : (s.requestStep t r).Inv := by
  have hre := h.refs r (mem_of_getElem? hr)
  rw [Server.requestStep]
  split <;> rename_i hpc <;> rw [hpc] at hre
  · refine h.goto hr _ ?_ ?_ <;> split <;> simp [Pc.locks, Pc.refs]
  · split
    · rename_i obj hob
      exact h.goto hr _ (by simp [Pc.locks]) (by simpa [Pc.refs] using h.registered _ _ hob)
    · exact h.goto hr _ (by simp [Pc.locks]) (by simp [Pc.refs])
  · split
    · exact h.acquire hr ‹_› (by simp [Pc.locks]) hre
    · exact h
  · exact h.goto hr _ (by simp [Pc.locks, hpc]) hre
  · exact h.release hr (by rw [hpc]; rfl) rfl hre
  · split
    · rename_i src ints hpc obj hob
      have hs : src < s.objects.length := hre src (by simp [Pc.refs])
      refine h.goto hr _ (by simp [Pc.locks]) ?_
      simpa [Pc.refs] using ⟨h.registered _ _ hob, hs⟩
    · exact h.goto hr _ (by simp [Pc.locks]) (by simp [Pc.refs])
  · split
    · exact h.acquire hr ‹_› (by simp [Pc.locks]) hre
    · exact h
  · exact h.clear hr (by rw [hpc]; rfl) rfl hre
  · refine h.release hr (by rw [hpc]; rfl) rfl fun o ho => hre o ?_
    exact mem_cons_of_mem _ ho
  · exact h
  · exact h
  · exact h

/-- **Setting a counter to zero** loses nothing exactly if the counter is what is reported. -/
theorem conserved_clear_iff (hi : s.Inv) (h : s.Conserved) {src ints : ℕ}
    (hpc : r.pc = .clear obj src ints) :
    ((s.onObject obj .clear).goto t r (.releaseClear obj src ints)).Conserved ↔
      if obj = src then s.counterOf obj = ints else s.counterOf obj = 0 ∧ ints = 0 := by
  have hre := hi.refs r (mem_of_getElem? hr)
  rw [hpc] at hre
  have hobj : obj < s.objects.length := hre obj (by simp [Pc.refs])
  have hs : src < s.objects.length := hre src (by simp [Pc.refs])
  -- what the step does to the sums of one interrupt
  have hsu : ∀ (o : ℕ) (y : SimInterrupt), s.objects[o]? = some y →
      (((s.onObject obj .clear).goto t r (.releaseClear obj src ints)).reported o +
          ((if obj = o then SimInterrupt.clear else id) y).held =
        ((if obj = o then SimInterrupt.clear else id) y).edges ↔
      (if src = o then ints else 0) = if obj = o then s.counterOf o else 0) := by
    intro o y hy
    have hrep := reported_goto (s := s.onObject obj .clear) hr (.releaseClear obj src ints) o
    have hsa : (s.onObject obj .clear).reported o = s.reported o := rfl
    have hol := h o y hy
    rw [hpc, hsa] at hrep
    rw [counterOf_eq hy]
    simp only [Pc.reports] at hrep
    rw [SimInterrupt.held] at hol
    by_cases heq : obj = o
    · rw [if_pos heq, if_pos heq, SimInterrupt.held, SimInterrupt.clear]
      dsimp only
      omega
    · rw [if_neg heq, if_neg heq, id, SimInterrupt.held]
      omega
  have hal : ((s.onObject obj .clear).goto t r (.releaseClear obj src ints)).Conserved ↔
      ∀ o < s.objects.length,
        (if src = o then ints else 0) = if obj = o then s.counterOf o else 0 := by
    constructor
    · intro hc o ho
      refine (hsu o _ (getElem?_eq_getElem ho)).mp (hc o _ ?_)
      exact (getElem?_onObject s obj .clear o).trans (by rw [getElem?_eq_getElem ho]; rfl)
    · intro hco o x hx
      have hob : s.objects[o]?.map (if obj = o then .clear else id) = some x :=
        (getElem?_onObject s obj .clear o).symm.trans hx
      obtain ⟨y, hy, rfl⟩ := Option.map_eq_some_iff.mp hob
      exact (hsu o y hy).mpr (hco o (lt_of_getElem? hy))
  rw [hal]
  constructor
  · intro hco
    have ha := hco obj hobj
    have hatS := hco src hs
    split
    · rename_i heq
      rw [if_pos heq.symm, if_pos rfl] at ha
      exact ha.symm
    · rename_i hne
      rw [if_neg (Ne.symm hne), if_pos rfl] at ha
      rw [if_pos rfl, if_neg hne] at hatS
      exact ⟨ha.symm, hatS⟩
  · intro hco o _
    split at hco
    · rename_i heq
      subst heq
      split
      · rename_i heq
        rw [← heq, hco]
      · rfl
    · split
      · rename_i hne heq
        rw [if_neg (heq ▸ hne)]
        exact hco.2
      · split
        · rename_i heq
          rw [← heq]
          exact hco.1.symm
        · rfl

theorem Conserved.requestStep (h : s.Conserved) (hpc : ∀ obj src ints, r.pc ≠ .clear obj src ints) :
    (s.requestStep t r).Conserved := by
  rw [Server.requestStep]
  split <;> rename_i heq
  · refine h.goto hr _ fun o => ?_
    rw [heq]
    split <;> rfl
  · split <;> exact h.goto hr _ fun o => by rw [heq]; rfl
  · split
    · exact h.advance hr _ _ _ (fun _ => ⟨rfl, rfl⟩) fun o => by rw [heq]; rfl
    · exact h
  · exact h.goto hr _ fun o => by rw [heq]; rfl
  · exact h.advance hr _ _ _ (fun _ => ⟨rfl, rfl⟩) fun o => by rw [heq]; rfl
  · split <;> exact h.goto hr _ fun o => by rw [heq]; rfl
  · split
    · exact h.advance hr _ _ _ (fun _ => ⟨rfl, rfl⟩) fun o => by rw [heq]; rfl
    · exact h
  · exact absurd heq (hpc _ _ _)
  · exact h.advance hr _ _ _ (fun _ => ⟨rfl, rfl⟩) fun o => by rw [heq]; rfl
  · exact h
  · exact h
  · exact h

end RequestStep

/-! ### Runs -/

/-- **A request that sets a counter to zero** finds there what it has read and reports; if the file
descriptor was registered again in between, both counters are zero. -/
def Settles (s : Server) : Action → Prop
  | .step t => ∀ (r : StatusRequest) (obj src ints : ℕ), s.requests[t]? = some r →
      r.pc = .clear obj src ints →
        if obj = src then s.counterOf obj = ints else s.counterOf obj = 0 ∧ ints = 0
  | _ => True

section Step

variable {s : Server} {t : ℕ} {r : StatusRequest}

theorem settles_step_iff (hr : s.requests[t]? = some r) :
    s.Settles (.step t) ↔ ∀ obj src ints, r.pc = .clear obj src ints →
      if obj = src then s.counterOf obj = ints else s.counterOf obj = 0 ∧ ints = 0 := by
  refine ⟨fun h obj src ints hpc => h r obj src ints hr hpc, fun h r' obj src ints hr' hpc => ?_⟩
  obtain rfl : r = r' := Option.mem_unique hr hr'
  exact h obj src ints hpc

theorem conserved_requestStep_iff (hr : s.requests[t]? = some r) (hi : s.Inv) (h : s.Conserved) :
    (s.requestStep t r).Conserved ↔ s.Settles (.step t) := by
  rw [settles_step_iff hr]
  by_cases hpc : ∃ obj src ints, r.pc = .clear obj src ints
  · obtain ⟨obj, src, ints, hpc⟩ := hpc
    simp only [requestStep, hpc, Pc.clear.injEq]
    rw [conserved_clear_iff hr hi h hpc]
    exact ⟨by rintro hc _ _ _ ⟨rfl, rfl, rfl⟩; exact hc,
      fun hc => hc obj src ints ⟨rfl, rfl, rfl⟩⟩
  · exact iff_of_true (h.requestStep hr fun obj src ints heq => hpc ⟨obj, src, ints, heq⟩)
      fun obj src ints heq => absurd ⟨obj, src, ints, heq⟩ hpc

theorem Inv.reported_length (h : s.Inv) : s.reported s.objects.length = 0 := by
  refine total_eq_zero fun r hr => ?_
  have hre := h.refs r hr
  cases hpc : r.pc with
  | releaseClear obj src ints =>
    have hs := hre src (by simp [hpc, Pc.refs])
    exact if_neg (ne_of_lt hs)
  | okay src ints =>
    have hs := hre src (by simp [hpc, Pc.refs])
    exact if_neg (ne_of_lt hs)
  | _ => rfl

theorem length_registerInterrupt (s : Server) (fd id : ℤ) :
    (s.registerInterrupt fd id).objects.length = s.objects.length + 1 := by
  rw [registerInterrupt]
  cases s.interrupts fd with
  | none => exact length_append
  | some o => simp

theorem getElem?_registerInterrupt_length (s : Server) (fd id : ℤ) :
    (s.registerInterrupt fd id).objects[s.objects.length]? = some (.new (portOf id)) := by
  rw [registerInterrupt]
  cases s.interrupts fd with
  | none => exact getElem?_concat_length
  | some o =>
    have hl : (s.objects.modify o .deregisterInterrupt).length = s.objects.length :=
      length_modify ..
    rw [← hl]
    exact getElem?_concat_length

theorem getElem?_registerInterrupt_cases {obj : ℕ} {x : SimInterrupt} {fd id : ℤ}
    (hx : (s.registerInterrupt fd id).objects[obj]? = some x) :
    obj = s.objects.length ∧ x = .new (portOf id) ∨
      ∃ (y : SimInterrupt) (f : SimInterrupt → SimInterrupt), s.objects[obj]? = some y ∧ x = f y ∧
        SimInterrupt.Quiet f := by
  have hlt : obj < s.objects.length + 1 :=
    length_registerInterrupt s fd id ▸ lt_of_getElem? hx
  rcases Nat.lt_succ_iff_lt_or_eq.mp hlt with hlt | rfl
  · rw [getElem?_registerInterrupt hlt] at hx
    obtain ⟨y, hy, rfl⟩ := Option.map_eq_some_iff.mp hx
    exact .inr ⟨y, _, hy, rfl, SimInterrupt.quiet_deregisterInterrupt.ite _⟩
  · rw [getElem?_registerInterrupt_length, Option.some.injEq] at hx
    exact .inl ⟨rfl, hx.symm⟩

theorem Inv.registerInterrupt (h : s.Inv) (fd id : ℤ) : (s.registerInterrupt fd id).Inv := by
  have hlen := length_registerInterrupt s fd id
  refine ⟨fun x hx => ?_, fun t r obj hr hl => ?_, fun r hr obj ho => ?_, fun fd' obj ho => ?_⟩
  · obtain ⟨obj, ho⟩ := getElem?_of_mem hx
    rcases getElem?_registerInterrupt_cases ho with ⟨-, rfl⟩ | ⟨y, f, hy, rfl, hf⟩
    · exact SimInterrupt.sound_new _
    · exact hf.sound y (h.sound y (mem_of_getElem? hy))
  · obtain ⟨x, hx, hlo⟩ := h.locked t r obj hr hl
    have ho := getElem?_registerInterrupt (lt_of_getElem? hx) fd id
    rw [hx, Option.map_some] at ho
    refine ⟨_, ho, ?_⟩
    split <;> exact hlo
  · have hol := h.refs r hr obj ho
    omega
  · have hu : Function.update s.interrupts fd (some s.objects.length) fd' = some obj := ho
    by_cases hfd : fd' = fd
    · rw [hfd, Function.update_self, Option.some.injEq] at hu
      omega
    · rw [Function.update_of_ne hfd] at hu
      have hol := h.registered fd' obj hu
      omega

theorem Conserved.registerInterrupt (hi : s.Inv) (h : s.Conserved) (fd id : ℤ) :
    (s.registerInterrupt fd id).Conserved := by
  intro obj x hx
  rcases getElem?_registerInterrupt_cases hx with ⟨rfl, rfl⟩ | ⟨y, f, hy, rfl, hf⟩
  · exact congrArg (· + 0) hi.reported_length
  have hh := hf.held y (hi.sound y (mem_of_getElem? hy))
  have ho := h obj y hy
  have hs : (s.registerInterrupt fd id).reported obj = s.reported obj := rfl
  omega

theorem inv_step (s : Server) (a : Action) (h : s.Inv) : (s.step a).Inv := by
  cases a with
  | register fd interruptId => exact h.registerInterrupt fd interruptId
  | deregister fd =>
    refine ⟨h.sound, h.locked, h.refs, fun fd' obj ho => ?_⟩
    have hu : Function.update s.interrupts fd none fd' = some obj := ho
    by_cases hf : fd' = fd
    · rw [hf, Function.update_self] at hu
      simp at hu
    · rw [Function.update_of_ne hf] at hu
      exact h.registered fd' obj hu
  | request fd =>
    refine ⟨h.sound, fun t r obj hr hl => ?_, fun r hr obj ho => ?_, h.registered⟩
    · rcases getElem?_concat_cases hr with ⟨-, rfl⟩ | hr
      · exact absurd hl (by simp [Pc.locks])
      · exact h.locked t r obj hr hl
    · rcases mem_append.mp hr with hr | hr
      · exact h.refs r hr obj ho
      · rw [mem_singleton.mp hr] at ho
        exact absurd ho (by simp [Pc.refs])
  | step t =>
    rw [step]
    cases hr : s.requests[t]? with
    | none => exact h
    | some r => exact h.requestStep hr
  | start obj =>
    exact h.quiet (fun o => (SimInterrupt.quiet_start s.dut).ite _) (getElem?_onObject s obj _) rfl
      rfl
  | edge port =>
    rw [step]
    split
    · exact h
    · exact h.quiet (fun _ => SimInterrupt.quiet_risingEdge s.dut port)
        (fun o => getElem?_map ..) rfl rfl
  | assert obj =>
    exact h.quiet (fun o => (SimInterrupt.quiet_assertInterrupt s.dut).ite _)
      (getElem?_onObject s obj _) rfl rfl

/-- **An action loses nothing** exactly if it settles what it sets to zero. -/
theorem conserved_step_iff (s : Server) (a : Action) (hi : s.Inv) (h : s.Conserved) :
    (s.step a).Conserved ↔ s.Settles a := by
  cases a with
  | register fd interruptId => exact iff_of_true (h.registerInterrupt hi fd interruptId) trivial
  | deregister fd => exact iff_of_true h trivial
  | request fd =>
    refine iff_of_true (fun obj x hx => ?_) trivial
    have hs : (s.step (.request fd)).reported obj = s.reported obj := total_concat ..
    rw [hs]
    exact h obj x hx
  | step t =>
    rw [step]
    cases hr : s.requests[t]? with
    | none => exact iff_of_true h fun r _ _ _ hr' => absurd (hr.symm.trans hr') (by simp)
    | some r => exact conserved_requestStep_iff hr hi h
  | start obj =>
    exact iff_of_true (h.quiet (fun o => (SimInterrupt.quiet_start s.dut).ite _)
      (getElem?_onObject s obj _) rfl hi) trivial
  | edge port =>
    refine iff_of_true ?_ trivial
    rw [step]
    split
    · exact h
    · exact h.quiet (fun _ => SimInterrupt.quiet_risingEdge s.dut port) (fun o => getElem?_map ..)
        rfl hi
  | assert obj =>
    exact iff_of_true (h.quiet (fun o => (SimInterrupt.quiet_assertInterrupt s.dut).ite _)
      (getElem?_onObject s obj _) rfl hi) trivial

end Step

/-- **No simulated interrupt is lost** in a run exactly if every request that sets a counter to
zero finds there what it has read. -/
theorem edges_conserved_iff (dut : List Port) (as : List Action) :
    (∀ s ∈ Runs.trace step (new dut) as, s.Conserved) ↔ Runs.AllSteps step Settles (new dut) as :=
  Runs.forall_mem_trace_iff inv_step conserved_step_iff (inv_new dut) (conserved_new dut) as

/-- An edge comes after a request has read the counter, and before it sets it to zero: the request
reports one interrupt, and there were two. -/
theorem edge_lost_between_read_and_clear :
    ∃ (dut : List Port) (as : List Action) (x : SimInterrupt),
      (Runs.run step (new dut) as).objects[0]? = some x ∧ x.edges = 2 ∧ x.held = 0 ∧
        (Runs.run step (new dut) as).reported 0 = 1 ∧
        ¬ ∀ s ∈ Runs.trace step (new dut) as, s.Conserved := by
  refine ⟨[portOf 0],
    [.register 0 0, .start 0, .edge (portOf 0), .assert 0, .assert 0, .assert 0, .assert 0,
      .request 0, .step 0, .step 0, .step 0, .step 0, .step 0,
      .edge (portOf 0), .assert 0, .assert 0, .assert 0, .assert 0,
      .step 0, .step 0, .step 0, .step 0],
    ⟨0, none, portOf 0, true, false, .waiting, 2⟩, by decide, rfl, rfl, by decide, fun h => ?_⟩
  have hsum := h _ (Runs.run_mem_trace _ _) 0 ⟨0, none, portOf 0, true, false, .waiting, 2⟩
    (by decide)
  exact absurd hsum (by decide)

end Server

end Tapasco.Sim
