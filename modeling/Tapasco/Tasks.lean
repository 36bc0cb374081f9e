import Tapasco.Lib.Places
import Tapasco.Lib.Runs
import Tapasco.ResourceMonitor

/-!
# Task Scheduling

Model of `Tasks.scala`. Tasks are put into a queue. One thread takes them out, starts those that
the resource monitor lets start, and puts the others back. The job of a task runs in a future,
and `completeTask` runs when it is over, on another thread.

A run is an interleaving of the steps of the processing thread, of the futures, and of new tasks
that are put into the queue. Each access to a queue or to the set of consumers is one step. Every
task is enqueued once. The state has two histories besides the data of the program: the tasks
that were started, and those that were released.
-/

open List

namespace Tapasco.Tasks

open Places

/-! ### The scheduler -/

/-- Where the processing thread is with a task. -/
inductive ProcessingStage where
  | taken | starting | registering | launching
  deriving DecidableEq

/-- Where the future of a task is. -/
inductive FutureStage where
  | job | completed | removed | released | done

/-- The state of `Tasks` and of its monitor. -/
structure State where
  /-- How many tasks have been enqueued. -/
  enqueued : ℕ
  queued : List Task
  processing : Option (Task × ProcessingStage)
  futures : List (Task × FutureStage)
  running : List Task
  cons : List Task
  complete : List Task
  started : List ℕ
  released : List ℕ

def init : State :=
  ⟨0, [], none, [], [], [], [], [], []⟩

/-- What happens next. -/
inductive Action where
  | apply (requirements : Requirements)
  /-- A step of the processing thread, with the answer of the task if it overrides `canStart`. -/
  | process (gate : Bool)
  /-- A step of a future. -/
  | future (i : ℕ)
  | clearCompleted

/-- A step of the loop of `ProcessingRunnable`. -/
def process (m : Monitor) (gate : Bool) (s : State) : State :=
  match s.processing with
  | none =>
    match s.queued with
    | [] => s
    | t :: queued => { s with queued := queued, processing := some (t, .taken) }
  | some (t, .taken) =>
    if m.canStart s.cons t gate then
      { s with processing := some (t, .starting), started := s.started ++ [t.id] }
    else { s with queued := s.queued ++ [t], processing := none }
  | some (t, .starting) =>
    { s with processing := some (t, .registering), running := s.running ++ [t] }
  | some (t, .registering) =>
    { s with processing := some (t, .launching), cons := m.doStart s.cons t gate }
  | some (t, .launching) =>
    { s with processing := none, futures := s.futures ++ [(t, .job)] }

/-- The end of the job of a task, or a step of `completeTask`. -/
def complete (i : ℕ) (t : Task) (s : State) : FutureStage → State
  | .job => { s with futures := s.futures.set i (t, .completed) }
  | .completed =>
    { s with futures := s.futures.set i (t, .removed), running := s.running.erase t }
  | .removed =>
    { s with
      futures := s.futures.set i (t, .released)
      cons := Monitor.didFinish s.cons t
      released := s.released ++ [t.id] }
  | .released =>
    { s with futures := s.futures.set i (t, .done), complete := s.complete ++ [t] }
  | .done => s

def step (m : Monitor) (s : State) : Action → State
  | .apply requirements =>
    { s with
      enqueued := s.enqueued + 1
      queued := s.queued ++ [⟨s.enqueued, requirements⟩] }
  | .process gate => process m gate s
  | .future i =>
    match s.futures[i]? with
    | none => s
    | some (t, stage) => complete i t s stage
  | .clearCompleted => { s with complete := [] }

/-! ### Where tasks are -/

/-- Where a task is. -/
inductive Where where
  | queued
  | processing (stage : ProcessingStage)
  | future (stage : FutureStage)

namespace Where

def isStarted : Where → Bool
  | queued | processing .taken => false
  | _ => true

def isRunning : Where → Bool
  | processing .registering | processing .launching | future .job | future .completed => true
  | _ => false

/-- The monitor has been told of the task, and not yet that it finished. -/
def isRegistered : Where → Bool
  | processing .launching | future .job | future .completed | future .removed => true
  | _ => false

def isReleased : Where → Bool
  | future .released | future .done => true
  | _ => false

end Where

def State.places (s : State) : List (Task × Where) :=
  s.queued.map (fun t => (t, .queued)) ++
    s.processing.toList.map (fun p => (p.1, .processing p.2)) ++
    s.futures.map fun f => (f.1, .future f.2)

/-- Every task is at one place, and the lists have the tasks that are at the right places. -/
structure Inv (s : State) : Prop where
  placed : (s.places.map fun e => e.1.id).Perm (List.range s.enqueued)
  started : s.started.Perm ((things Where.isStarted s.places).map Task.id)
  released : s.released.Perm ((things Where.isReleased s.places).map Task.id)
  running : s.running.Perm (things Where.isRunning s.places)
  cons : s.cons.Subperm (things Where.isRegistered s.places)

theorem inv_init : Inv init :=
  ⟨.nil, .nil, .nil, .nil, nil_subperm⟩

/-- A list of the tasks at certain places after a task has moved. -/
inductive Follows {κ : Type*} (w : Where → Bool) (a b : Where) (x : κ) (l : List κ) :
    List κ → Prop
  | keep (h : w b = w a) : Follows w a b x l l
  | enter (ha : w a = false) (hb : w b = true) : Follows w a b x l (l ++ [x])
  | leave {l' : List κ} (ha : w a = true) (hb : w b = false) (h : l.Perm (x :: l')) :
      Follows w a b x l l'

section Moves

variable {s s' : State} {t : Task} {a b : Where}

theorem perm_of_follows {κ : Type*} {f : Task → κ} {w : Where → Bool} {l l' : List κ}
    (hm : Moves s.places s'.places t a b) (hl : l.Perm ((things w s.places).map f))
    (h : Follows w a b (f t) l l') : l'.Perm ((things w s'.places).map f) := by
  cases h with
  | keep hw => exact hl.trans ((hm.things_keep hw).symm.map f)
  | enter ha hb =>
    refine (perm_append_singleton _ _).trans ?_
    exact (hl.cons (f t)).trans ((hm.things_enter ha hb).symm.map f)
  | leave ha hb hp =>
    refine List.Perm.cons_inv (a := f t) ?_
    exact hp.symm.trans (hl.trans ((hm.things_leave ha hb).map f))

theorem Inv.moves (h : Inv s) (hm : Moves s.places s'.places t a b) (he : s'.enqueued = s.enqueued)
    (hs : Follows Where.isStarted a b t.id s.started s'.started)
    (hr : Follows Where.isReleased a b t.id s.released s'.released)
    (hru : Follows Where.isRunning a b t s.running s'.running)
    (hc : s'.cons.Subperm (things Where.isRegistered s'.places)) : Inv s' where
  placed := by
    obtain ⟨rest, hl, hl'⟩ := hm
    rw [he]
    exact (hl'.map _).trans ((hl.map fun e => e.1.id).symm.trans h.placed)
  started := perm_of_follows hm h.started hs
  released := perm_of_follows hm h.released hr
  running := by
    have hl : s.running.Perm ((things Where.isRunning s.places).map id) := by
      rw [map_id]
      exact h.running
    have hl' := perm_of_follows hm hl hru
    rwa [map_id] at hl'
  cons := hc

theorem Inv.subperm_keep (h : Inv s) (hm : Moves s.places s'.places t a b)
    (hw : b.isRegistered = a.isRegistered) : s.cons.Subperm (things Where.isRegistered s'.places) :=
  h.cons.trans (hm.things_keep hw).symm.subperm

theorem Inv.nodup (h : Inv s) : (s.places.map fun e => e.1.id).Nodup :=
  h.placed.nodup_iff.mpr nodup_range

theorem Inv.not_mem_cons (h : Inv s) (ht : (t, a) ∈ s.places) (ha : a.isRegistered = false) :
    t ∉ s.cons :=
  fun hm => not_mem_things h.nodup ht ha (h.cons.subset hm)

end Moves

/-! ### The moves -/

section Places

variable {s : State} {t : Task}

theorem moves_processing {stage : ProcessingStage} (h : s.processing = some (t, stage))
    (next : ProcessingStage) :
    Moves s.places { s with processing := some (t, next) : State }.places t (.processing stage)
      (.processing next) := by
  simp only [State.places, h]
  exact (moves_set (l := [(t, Where.processing stage)]) (i := 0) rfl _).append _ _

/-- The task that is processed, and the others. -/
theorem places_perm {stage : ProcessingStage} (h : s.processing = some (t, stage)) :
    s.places.Perm ((t, .processing stage) ::
      (s.queued.map (fun t => (t, .queued)) ++ s.futures.map fun f => (f.1, .future f.2))) := by
  simp only [State.places, h, Option.toList_some, map_cons, map_nil, append_assoc, singleton_append]
  exact perm_middle

theorem moves_take {queued : List Task} (h : s.processing = none) (hq : s.queued = t :: queued) :
    Moves s.places { s with queued := queued, processing := some (t, .taken) : State }.places t
      .queued (.processing .taken) := by
  refine ⟨_, ?_, places_perm rfl⟩
  simp only [State.places, h, hq, Option.toList_none, map_nil, append_nil, map_cons, cons_append,
    List.Perm.refl]

theorem moves_reinsert (h : s.processing = some (t, .taken)) :
    Moves s.places { s with queued := s.queued ++ [t], processing := none : State }.places t
      (.processing .taken) .queued := by
  refine ⟨_, places_perm h, ?_⟩
  simp only [State.places, Option.toList_none, map_nil, append_nil, map_append, map_cons,
    append_assoc, singleton_append]
  exact perm_middle

theorem moves_launch (h : s.processing = some (t, .launching)) :
    Moves s.places { s with processing := none, futures := s.futures ++ [(t, .job)] : State }.places
      t (.processing .launching) (.future .job) := by
  refine ⟨_, places_perm h, ?_⟩
  simp only [State.places, Option.toList_none, map_nil, append_nil, map_append, map_cons]
  rw [← append_assoc]
  exact perm_append_singleton _ _

theorem moves_future {i : ℕ} {stage : FutureStage} (h : s.futures[i]? = some (t, stage))
    (next : FutureStage) :
    Moves s.places { s with futures := s.futures.set i (t, next) : State }.places t
      (.future stage) (.future next) := by
  have hg : (s.futures.map fun f => (f.1, Where.future f.2))[i]? =
      some (t, Where.future stage) := by
    rw [getElem?_map, h]
    rfl
  have hm := (moves_set hg (.future next)).append
    (s.queued.map (fun t => (t, Where.queued)) ++
      s.processing.toList.map fun p => (p.1, Where.processing p.2)) []
  rw [append_nil, append_nil] at hm
  rw [State.places, State.places, map_set]
  exact hm

end Places

/-! ### Every step keeps the tasks in their places -/

namespace Inv

variable {s : State} (h : Inv s) (m : Monitor)
include h

theorem apply (req : Requirements) : Inv (step m s (.apply req)) := by
  have hp : (step m s (.apply req)).places.Perm
      ((⟨s.enqueued, req⟩, .queued) :: s.places) := by
    simp only [step, State.places, map_append, map_cons, map_nil, append_assoc, singleton_append]
    exact perm_middle
  have ht (w : Where → Bool) (hw : w .queued = false) :
      (things w s.places).Perm (things w (step m s (.apply req)).places) := by
    refine List.Perm.trans ?_ (things_perm w hp).symm
    rw [things_cons_of_neg hw]
  constructor
  · refine (hp.map _).trans ?_
    rw [step, range_succ]
    exact (h.placed.cons _).trans (perm_append_singleton _ _).symm
  · exact h.started.trans ((ht _ rfl).map _)
  · exact h.released.trans ((ht _ rfl).map _)
  · exact h.running.trans (ht _ rfl)
  · exact h.cons.trans (ht _ rfl).subperm

theorem process (gate : Bool) : Inv (process m gate s) := by
  rw [Tasks.process]
  split
  · rename_i hp
    split
    · exact h
    · rename_i t queued hq
      have hm := moves_take hp hq
      exact h.moves hm rfl (.keep rfl) (.keep rfl) (.keep rfl) (h.subperm_keep hm rfl)
  · rename_i t hp
    split
    · have hm := moves_processing hp .starting
      exact h.moves hm rfl (.enter rfl rfl) (.keep rfl) (.keep rfl)
        (h.subperm_keep hm rfl)
    · have hm := moves_reinsert hp
      exact h.moves hm rfl (.keep rfl) (.keep rfl) (.keep rfl) (h.subperm_keep hm rfl)
  · rename_i t hp
    have hm := moves_processing hp .registering
    exact h.moves hm rfl (.keep rfl) (.keep rfl) (.enter rfl rfl) (h.subperm_keep hm rfl)
  · rename_i t hp
    have hm := moves_processing hp .launching
    refine h.moves hm rfl (.keep rfl) (.keep rfl) (.keep rfl) ?_
    refine List.Subperm.trans ?_ (hm.things_enter rfl rfl).symm.subperm
    dsimp only
    rw [Monitor.doStart]
    split
    · rw [insert_of_not_mem (h.not_mem_cons hm.mem rfl)]
      exact (subperm_cons t).mpr h.cons
    · exact h.cons.trans (sublist_cons_self t _).subperm
  · rename_i t hp
    have hm := moves_launch hp
    exact h.moves hm rfl (.keep rfl) (.keep rfl) (.keep rfl) (h.subperm_keep hm rfl)

theorem perm_erase_running {t : Task} {a : Where} (ht : (t, a) ∈ s.places)
    (ha : a.isRunning = true) : s.running.Perm (t :: s.running.erase t) :=
  perm_cons_erase (h.running.mem_iff.mpr (mem_things ht ha))

theorem future (i : ℕ) : Inv (step m s (.future i)) := by
  rw [step]
  split
  · exact h
  · rename_i t stage hg
    cases stage with
    | job =>
      have hm := moves_future hg .completed
      exact h.moves hm rfl (.keep rfl) (.keep rfl) (.keep rfl) (h.subperm_keep hm rfl)
    | completed =>
      have hm := moves_future hg .removed
      exact h.moves hm rfl (.keep rfl) (.keep rfl)
        (.leave rfl rfl (h.perm_erase_running hm.mem rfl)) (h.subperm_keep hm rfl)
    | removed =>
      have hm := moves_future hg .released
      refine h.moves hm rfl (.keep rfl) (.enter rfl rfl) (.keep rfl) ?_
      have he := h.cons.erase t
      rw [((hm.things_leave rfl rfl).erase t).subperm_left, erase_cons_head] at he
      exact he
    | released =>
      have hm := moves_future hg .done
      exact h.moves hm rfl (.keep rfl) (.keep rfl) (.keep rfl) (h.subperm_keep hm rfl)
    | done => exact h

theorem step (a : Action) : Inv (step m s a) := by
  cases a with
  | apply requirements => exact h.apply m requirements
  | process gate => exact h.process m gate
  | future i => exact h.future m i
  | clearCompleted => exact ⟨h.placed, h.started, h.released, h.running, h.cons⟩

end Inv

/-! ### Limits -/

/-- The task that the processing thread has started and the monitor has not been told of. -/
def State.pending (s : State) : List Task :=
  match s.processing with
  | some (t, .starting) | some (t, .registering) => [t]
  | _ => []

/-- Tasks that are subject to the monitor only. -/
def Task.isUngated (t : Task) : Bool :=
  !t.requirements.gated

theorem used_filter_isUngated (r : Resource) (tasks : List Task) :
    used r (tasks.filter Task.isUngated) = used r tasks := by
  induction tasks with
  | nil => rfl
  | cons t tasks ih =>
    cases hg : t.requirements.gated with
    | true =>
      rw [filter_cons_of_neg (by simp [Task.isUngated, hg]), ih, used_cons,
        t.amount_of_gated hg, Int.zero_add]
    | false =>
      rw [filter_cons_of_pos (by simp [Task.isUngated, hg]), used_cons, used_cons, ih]

theorem used_le_of_subperm (r : Resource) {tasks tasks' : List Task}
    (h : tasks.Subperm tasks') : used r tasks ≤ used r tasks' := by
  obtain ⟨l, hp, hs⟩ := h
  rw [← used_perm r hp]
  refine (hs.map _).sum_le_sum fun x hx => ?_
  obtain ⟨t, -, rfl⟩ := mem_map.mp hx
  exact t.amount_nonneg r

/-- The monitor knows all tasks that use resources, and together with the one that is being
started they stay within the limits. -/
structure Limited (m : Monitor) (s : State) : Prop where
  registered : (s.cons.filter Task.isUngated).Perm
    ((things Where.isRegistered s.places).filter Task.isUngated)
  limits : ∀ r, used r s.cons + used r s.pending ≤ m.limit r

theorem limited_init (m : Monitor) : Limited m init :=
  ⟨.nil, fun r => (m.isCount_limit r).1⟩

/-- For a task that the monitor lets start there is enough memory, and no sum overflows. -/
def Admits (m : Monitor) (s : State) : Action → Prop
  | .process gate => ∀ t, s.processing = some (t, .taken) → m.canStart s.cons t gate = true →
      used .memory s.cons + t.amount .memory ≤ m.limit .memory ∧
      ∀ r, used r s.cons + t.amount r < 2 ^ 31
  | _ => True

section Limited

variable {m : Monitor} {s s' : State} {t : Task} {a b : Where}

theorem Limited.perm_keep (hl : Limited m s) (hm : Moves s.places s'.places t a b)
    (hw : b.isRegistered = a.isRegistered) : (s.cons.filter Task.isUngated).Perm
      ((things Where.isRegistered s'.places).filter Task.isUngated) :=
  hl.registered.trans ((hm.things_keep hw).symm.filter _)

theorem fits_of_canStart {gate : Bool} (ht : t ∉ s.cons)
    (ha : Admits m s (.process gate)) (hp : s.processing = some (t, .taken))
    (h : m.canStart s.cons t gate = true) (r : Resource) :
    used r s.cons + t.amount r ≤ m.limit r := by
  obtain ⟨hm, hb⟩ := ha t hp h
  rw [Monitor.canStart, Bool.and_eq_true, insert_of_not_mem ht] at h
  have hu (r : Resource) : used r (t :: s.cons) = used r s.cons + t.amount r := by
    rw [used_cons, Int.add_comm]
  obtain ⟨hc, hl⟩ := (m.check_iff fun r => (hu r).symm ▸ hb r).mp h.2
  cases r with
  | cpus => exact hu .cpus ▸ hc
  | memory => exact hm
  | licence feature => exact hu (.licence feature) ▸ hl feature

theorem canStart_of_fits {gate : Bool} (ht : t ∉ s.cons) (hun : t.isUngated = true)
    (h : ∀ r, used r s.cons + t.amount r ≤ m.limit r) : m.canStart s.cons t gate = true := by
  have hu (r : Resource) : used r (t :: s.cons) ≤ m.limit r := by
    rw [used_cons, Int.add_comm]
    exact h r
  have hc := m.check_iff fun r => (hu r).trans_lt (m.isCount_limit r).2
  rw [Task.isUngated] at hun
  rw [Monitor.canStart, insert_of_not_mem ht, hun, Bool.true_or, Bool.true_and, hc]
  exact ⟨hu .cpus, fun feature => hu (.licence feature)⟩

theorem Limited.process (hl : Limited m s) (h : Inv s) {gate : Bool}
    (ha : Admits m s (.process gate)) : Limited m (process m gate s) := by
  have hli := hl.limits
  rw [Tasks.process]
  split
  · rename_i hp
    rw [State.pending, hp] at hli
    split
    · exact hl
    · rename_i t queued hq
      exact ⟨hl.perm_keep (moves_take hp hq) rfl, hli⟩
  · rename_i t hp
    rw [State.pending, hp] at hli
    split
    · rename_i hs
      have hm := moves_processing hp .starting
      refine ⟨hl.perm_keep hm rfl, fun r => ?_⟩
      rw [State.pending, used_cons, used_nil, Int.add_zero]
      exact fits_of_canStart (h.not_mem_cons hm.mem rfl) ha hp hs r
    · exact ⟨hl.perm_keep (moves_reinsert hp) rfl, hli⟩
  · rename_i t hp
    rw [State.pending, hp] at hli
    exact ⟨hl.perm_keep (moves_processing hp .registering) rfl, hli⟩
  · rename_i t hp
    simp only [State.pending, hp, used_cons, used_nil, Int.add_zero] at hli
    have hm := moves_processing hp .launching
    have ht := h.not_mem_cons hm.mem rfl
    have hth := (hm.things_enter (w := Where.isRegistered) rfl rfl).filter Task.isUngated
    constructor
    · refine List.Perm.trans ?_ hth.symm
      dsimp only
      cases hu : t.isUngated with
      | true =>
        rw [Monitor.doStart, if_pos (canStart_of_fits ht hu hli),
          insert_of_not_mem ht, filter_cons_of_pos hu, filter_cons_of_pos hu]
        exact hl.registered.cons t
      | false =>
        rw [filter_cons_of_neg (by simp [hu]), Monitor.doStart]
        split
        · rw [insert_of_not_mem ht, filter_cons_of_neg (by simp [hu])]
          exact hl.registered
        · exact hl.registered
    · intro r
      have hr := hli r
      simp only [State.pending, used_nil, Int.add_zero, Monitor.doStart]
      split
      · rw [insert_of_not_mem ht, used_cons, Int.add_comm]
        exact hr
      · have hn := t.amount_nonneg r
        omega
  · rename_i t hp
    rw [State.pending, hp] at hli
    exact ⟨hl.perm_keep (moves_launch hp) rfl, hli⟩

theorem Limited.future (hl : Limited m s) (i : ℕ) : Limited m (step m s (.future i)) := by
  rw [step]
  split
  · exact hl
  · rename_i t stage hg
    cases stage with
    | job => exact ⟨hl.perm_keep (moves_future hg .completed) rfl, hl.limits⟩
    | completed => exact ⟨hl.perm_keep (moves_future hg .removed) rfl, hl.limits⟩
    | removed =>
      constructor
      · have ht := (moves_future hg .released).things_leave
          (w := Where.isRegistered) rfl rfl
        have he := (hl.registered.trans (ht.filter _)).erase t
        rw [erase_filter] at he
        refine he.trans (List.Perm.of_eq ?_)
        cases hu : t.isUngated with
        | true =>
          rw [filter_cons_of_pos hu, erase_cons_head]
          rfl
        | false =>
          have hn (tasks : List Task) : t ∉ tasks.filter Task.isUngated := by
            simp [mem_filter, hu]
          rw [filter_cons_of_neg (by simp [hu]), erase_of_not_mem (hn _)]
          rfl
      · intro r
        have he : used r (s.cons.erase t) ≤ used r s.cons :=
          used_le_of_subperm r (erase_sublist).subperm
        exact (Int.add_le_add_right he _).trans (hl.limits r)
    | released => exact ⟨hl.perm_keep (moves_future hg .done) rfl, hl.limits⟩
    | done => exact hl

theorem Limited.step (hl : Limited m s) (h : Inv s) {a : Action} (ha : Admits m s a) :
    Limited m (step m s a) := by
  cases a with
  | apply requirements =>
    refine ⟨hl.registered.trans (List.Perm.filter _ ?_), hl.limits⟩
    simp only [Tasks.step, State.places, map_append, map_cons, map_nil, things_append, append_assoc,
      things_cons_of_neg (show Where.isRegistered .queued = false from rfl)]
    exact List.Perm.refl _
  | process gate => exact hl.process h ha
  | future i => exact hl.future i
  | clearCompleted => exact ⟨hl.registered, hl.limits⟩

end Limited

/-! ### Safety -/

/-- The running tasks use no more of any resource than is available. -/
def WithinLimits (m : Monitor) (s : State) : Prop :=
  ∀ r, m.Fits s.running r

/-- Resources are released once for each task that has finished, and not at another time. -/
structure ReleasedOnce (s : State) : Prop where
  atMostOnce : s.released.Nodup
  finished : ∀ t, (t, .done) ∈ s.futures → t.id ∈ s.released
  free : ∀ t ∈ s.cons, t.id ∉ s.released

theorem subperm_things_isRunning (s : State) :
    (things Where.isRunning s.places).Subperm
      (things Where.isRegistered s.places ++ s.pending) := by
  have hq (w : Where → Bool) (hw : w .queued = false) (tasks : List Task) :
      things w (tasks.map fun t => (t, .queued)) = [] := by
    simp [things, hw]
  have hfu : (things Where.isRunning (s.futures.map fun f => (f.1, .future f.2))).Sublist
      (things Where.isRegistered (s.futures.map fun f => (f.1, .future f.2))) := by
    rw [things, things, filter_map, filter_map]
    refine ((monotone_filter_right _ fun f hf => ?_).map _).map _
    obtain ⟨t, stage⟩ := f
    cases stage with
    | job => rfl
    | completed => rfl
    | removed => rfl
    | released => exact absurd hf (by simp [Where.isRunning])
    | done => exact absurd hf (by simp [Where.isRunning])
  rw [State.places, things_append, things_append, things_append, things_append,
    hq _ rfl, hq _ rfl, nil_append, nil_append]
  cases hp : s.processing with
  | none =>
    rw [State.pending, hp, append_nil]
    exact hfu.subperm
  | some p =>
    obtain ⟨t, stage⟩ := p
    rw [State.pending, hp]
    cases stage with
    | taken =>
      rw [append_nil]
      exact hfu.subperm
    | starting => exact (hfu.trans (sublist_append_left _ [t])).subperm
    | registering =>
      refine List.Subperm.trans ?_ (perm_append_singleton t _).symm.subperm
      exact (subperm_cons t).mpr hfu.subperm
    | launching =>
      rw [append_nil]
      exact (subperm_cons t).mpr hfu.subperm

theorem Limited.withinLimits {m : Monitor} {s : State} (hl : Limited m s) (h : Inv s) :
    WithinLimits m s := by
  intro r
  have hr : used r s.cons = used r (things Where.isRegistered s.places) := by
    rw [← used_filter_isUngated, used_perm r hl.registered, used_filter_isUngated]
  calc used r s.running = used r (things Where.isRunning s.places) := used_perm r h.running
    _ ≤ used r (things Where.isRegistered s.places ++ s.pending) :=
        used_le_of_subperm r (subperm_things_isRunning s)
    _ = used r s.cons + used r s.pending := by rw [used_append, hr]
    _ ≤ m.limit r := hl.limits r

theorem Inv.nodup_things {s : State} (h : Inv s) (w : Where → Bool) :
    ((things w s.places).map Task.id).Nodup := by
  have hs := (things_sublist w s.places).map Task.id
  rw [map_map] at hs
  exact h.nodup.sublist hs

theorem Inv.nodup_started {s : State} (h : Inv s) : s.started.Nodup :=
  h.started.nodup_iff.mpr (h.nodup_things _)

theorem Inv.releasedOnce {s : State} (h : Inv s) : ReleasedOnce s where
  atMostOnce := h.released.nodup_iff.mpr (h.nodup_things _)
  finished t ht := by
    have hp : (t, Where.future .done) ∈ s.places :=
      mem_append_right _ (mem_map_of_mem (f := fun f => (f.1, Where.future f.2)) ht)
    exact h.released.mem_iff.mpr (mem_map_of_mem (mem_things hp rfl))
  free t ht hi := by
    obtain ⟨a, ha, hr⟩ := exists_of_mem_things (h.cons.subset ht)
    obtain ⟨u, hu, hui⟩ := mem_map.mp (h.released.mem_iff.mp hi)
    obtain ⟨b, hb, hre⟩ := exists_of_mem_things hu
    obtain ⟨-, rfl⟩ := Prod.mk.inj (inj_on_of_nodup_map h.nodup hb ha hui)
    cases b with
    | queued => exact absurd hre (by decide)
    | processing stage => exact absurd hre (by simp [Where.isReleased])
    | future stage => cases stage <;> simp_all [Where.isReleased, Where.isRegistered]

/-- **Safe scheduling.** In every run tasks are started at most once and released exactly once,
and if the monitor admits no task for which there is not enough memory, or with which a sum
overflows, the running tasks never use more than is available. -/
theorem resource_safe (m : Monitor) (as : List Action) :
    (∀ s ∈ Runs.trace (step m) init as, s.started.Nodup ∧ ReleasedOnce s) ∧
      (Runs.AllSteps (step m) (Admits m) init as →
        ∀ s ∈ Runs.trace (step m) init as, WithinLimits m s) := by
  constructor
  · intro s hs
    have h := Runs.forall_mem_trace (P := Inv) (fun s a h => h.step m a) inv_init as s hs
    exact ⟨h.nodup_started, h.releasedOnce⟩
  · intro hadmits s hs
    obtain ⟨h, hl⟩ := Runs.forall_mem_trace_of (P := fun s => Inv s ∧ Limited m s)
      (fun s a h hok => ⟨h.1.step m a, h.2.step h.1 hok⟩) ⟨inv_init, limited_init m⟩ hadmits s hs
    exact hl.withinLimits h

/-- What `HighLevelSynthesisTask` needs. -/
def highLevelSynthesis : Requirements where
  consumer := ⟨1, 4 * 1024 * 1024,
    [("HLS", 1), ("Synthesis", 1), ("Implementation", 1), ("Vivado_System_Edition", 1)]⟩
  valid := ⟨by decide, by decide, by decide⟩
  gated := false
  eq_null_of_gated h := absurd h (by decide)

/-- A machine with eight CPUs and memory for one synthesis, but not for two. -/
def workstation : Monitor where
  available := ⟨8, 6 * 1024 * 1024, []⟩
  valid := ⟨by decide, by decide, by decide⟩

theorem resource_safe_one_synthesis :
    (Runs.run (step workstation) init
      [.apply highLevelSynthesis, .process true, .process true, .process true]).running =
        [⟨0, highLevelSynthesis⟩] ∧
    ∀ s ∈ Runs.trace (step workstation) init
      [.apply highLevelSynthesis, .process true, .process true, .process true],
      WithinLimits workstation s := by
  refine ⟨by decide, (resource_safe workstation _).2 ⟨trivial, ?_, ?_, ?_, trivial⟩⟩
  · intro t ht
    exact absurd ht (by simp [step, init])
  · intro t ht _
    obtain rfl : ⟨0, highLevelSynthesis⟩ = t := congrArg Prod.fst (Option.some.inj ht)
    refine ⟨by decide, fun r => ?_⟩
    have hlt := highLevelSynthesis.valid.amount_lt r
    exact (Int.zero_add _).symm ▸ hlt
  · intro t ht
    have hstage : _ = some ProcessingStage.taken := congrArg (Option.map Prod.snd) ht
    exact absurd hstage (by decide)

/-- Two syntheses run at the same time, with less memory than they use. -/
theorem memory_exceeded :
    (Runs.run (step workstation) init ([.apply highLevelSynthesis, .apply highLevelSynthesis] ++
        List.replicate 10 (.process true))).running =
        [⟨0, highLevelSynthesis⟩, ⟨1, highLevelSynthesis⟩] ∧
    ¬ WithinLimits workstation (Runs.run (step workstation) init
      ([.apply highLevelSynthesis, .apply highLevelSynthesis] ++
        List.replicate 10 (.process true))) := by
  have hrunning : (Runs.run (step workstation) init
      ([.apply highLevelSynthesis, .apply highLevelSynthesis] ++
        List.replicate 10 (.process true))).running =
        [⟨0, highLevelSynthesis⟩, ⟨1, highLevelSynthesis⟩] := by decide +kernel
  refine ⟨hrunning, fun h => ?_⟩
  have hmemory := h .memory
  rw [Monitor.Fits, hrunning] at hmemory
  exact absurd hmemory (by decide)

end Tapasco.Tasks
