import Mathlib.Algebra.Order.BigOperators.Group.List
import Mathlib.Algebra.Ring.Int.Defs

/-!
# Resources of Tasks

Model of `ResourceConsumer.scala` and of `DefaultResourceMonitor` in `ResourceMonitor.scala`,
with SLURM disabled. A consumer advertises how many CPUs, how much memory and how many licences
of each feature it uses. The monitor has a set of consumers, and lets another one start if all
of them together do not use more than is available.

Numbers are those of the type `Int`, which wrap around. The numbers of a task, and those that
are available, are not negative. A set is a list without duplicates, and a map from features to
numbers is a list of pairs.

`canStart` of a task is `true` for all tasks but design space explorations, which use no
resources and of which only one should run at a time. For those it depends on the moment, and is
an argument here.
-/

open List

namespace Tapasco.Tasks

/-! ### Consumers -/

/-- The value of a sum in the type `Int`. -/
def wrap (x : ℤ) : ℤ :=
  x.bmod (2 ^ 32)

theorem wrap_wrap_add (x y : ℤ) : wrap (wrap x + y) = wrap (x + y) :=
  Int.bmod_add_bmod

theorem wrap_of_lt {x : ℤ} (h : 0 ≤ x) (hlt : x < 2 ^ 31) : wrap x = x :=
  Int.bmod_eq_of_le (by omega) (by omega)

def maxValue : ℤ :=
  2 ^ 31 - 1

/-- A map from features to numbers of licences. -/
abbrev Licences := List (String × ℤ)

def Licences.getOrElse (licences : Licences) (k : String) (default : ℤ) : ℤ :=
  (licences.lookup k).getD default

def Licences.keys (licences : Licences) : List String :=
  licences.map Prod.fst

theorem Licences.getOrElse_of_not_mem {lic : Licences} {k : String}
    (h : k ∉ lic.keys) (default : ℤ) : lic.getOrElse k default = default := by
  have hn : lic.lookup k = none := by
    rw [lookup_eq_none_iff]
    intro p hp
    rw [bne_iff_ne]
    rintro rfl
    exact h (mem_map_of_mem hp)
  rw [getOrElse, hn, Option.getD_none]

theorem Licences.getOrElse_cases (lic : Licences) (k : String) (default : ℤ) :
    lic.getOrElse k default = default ∨ (k, lic.getOrElse k default) ∈ lic := by
  rw [getOrElse]
  cases hl : lic.lookup k with
  | none => exact .inl rfl
  | some n =>
    obtain ⟨pre, post, rfl, -⟩ := lookup_eq_some_iff.mp hl
    exact .inr (mem_append_right _ mem_cons_self)

/-- Consumers advertise their usage of CPUs, memory and licences. -/
structure ResourceConsumer where
  cpus : ℤ
  memory : ℤ
  licences : Licences
  deriving DecidableEq

/-- What there is a limit for. -/
inductive Resource where
  | cpus
  | memory
  | licence (feature : String)

namespace ResourceConsumer

/-- How much of a resource a consumer uses. -/
def amount (c : ResourceConsumer) : Resource → ℤ
  | .cpus => c.cpus
  | .memory => c.memory
  | .licence feature => c.licences.getOrElse feature 0

def mergeLicences (a b : ResourceConsumer) : Licences :=
  (a.licences.keys ∪ b.licences.keys).map fun k =>
    (k, wrap (a.licences.getOrElse k 0 + b.licences.getOrElse k 0))

def merge (a b : ResourceConsumer) : ResourceConsumer where
  cpus := wrap (a.cpus + b.cpus)
  memory := wrap (a.memory + b.memory)
  licences := mergeLicences a b

def nullConsumer : ResourceConsumer :=
  ⟨0, 0, []⟩

/-- One that needs more processors, or more licences of a feature. -/
def usesMoreThan (c other : ResourceConsumer) : Bool :=
  other.cpus < c.cpus ||
    c.licences.keys.any fun k =>
      other.licences.getOrElse k maxValue < c.licences.getOrElse k 0

theorem getOrElse_mergeLicences (a b : ResourceConsumer) (k : String) :
    (mergeLicences a b).getOrElse k 0 =
      wrap (a.licences.getOrElse k 0 + b.licences.getOrElse k 0) := by
  by_cases hk : k ∈ a.licences.keys ∪ b.licences.keys
  · rw [Licences.getOrElse, mergeLicences, lookup_graph _ hk, Option.getD_some]
  have hke : (mergeLicences a b).keys = a.licences.keys ∪ b.licences.keys := by
    rw [Licences.keys, mergeLicences, map_map]
    exact map_id _
  rw [Licences.getOrElse_of_not_mem (hke ▸ hk)]
  rw [mem_union_iff, not_or] at hk
  rw [Licences.getOrElse_of_not_mem hk.1, Licences.getOrElse_of_not_mem hk.2]
  rfl

theorem amount_merge (a b : ResourceConsumer) (r : Resource) :
    (merge a b).amount r = wrap (a.amount r + b.amount r) := by
  cases r with
  | cpus => rfl
  | memory => rfl
  | licence feature => exact getOrElse_mergeLicences a b feature

/-- A number of things. -/
def IsCount (x : ℤ) : Prop :=
  0 ≤ x ∧ x < 2 ^ 31

instance (x : ℤ) : Decidable (IsCount x) :=
  inferInstanceAs (Decidable (_ ∧ _))

/-- The numbers of a consumer are not negative. -/
structure Valid (c : ResourceConsumer) : Prop where
  cpus : IsCount c.cpus
  memory : IsCount c.memory
  licences : ∀ e ∈ c.licences, IsCount e.2

theorem amount_nullConsumer (r : Resource) : nullConsumer.amount r = 0 := by
  cases r <;> rfl

theorem Valid.isCount_getOrElse {c : ResourceConsumer} (h : c.Valid) (k : String) {default : ℤ}
    (hd : IsCount default) : IsCount (c.licences.getOrElse k default) := by
  rcases c.licences.getOrElse_cases k default with hk | hk
  · rwa [hk]
  · exact h.licences _ hk

theorem Valid.amount_nonneg {c : ResourceConsumer} (h : c.Valid) (r : Resource) :
    0 ≤ c.amount r := by
  cases r with
  | cpus => exact h.cpus.1
  | memory => exact h.memory.1
  | licence feature => exact (h.isCount_getOrElse feature (by decide)).1

theorem Valid.amount_lt {c : ResourceConsumer} (h : c.Valid) (r : Resource) :
    c.amount r < 2 ^ 31 := by
  cases r with
  | cpus => exact h.cpus.2
  | memory => exact h.memory.2
  | licence feature => exact (h.isCount_getOrElse feature (by decide)).2

end ResourceConsumer

/-! ### Tasks -/

open ResourceConsumer

/-- What a task needs, and whether it overrides `canStart`. -/
structure Requirements where
  consumer : ResourceConsumer
  valid : consumer.Valid
  gated : Bool
  eq_null_of_gated : gated = true → consumer = nullConsumer
  deriving DecidableEq

/-- A task, which is known by the order in which it was enqueued. -/
structure Task where
  id : ℕ
  requirements : Requirements
  deriving DecidableEq

def Task.amount (t : Task) (r : Resource) : ℤ :=
  t.requirements.consumer.amount r

theorem Task.amount_nonneg (t : Task) (r : Resource) : 0 ≤ t.amount r :=
  t.requirements.valid.amount_nonneg r

theorem Task.amount_of_gated {t : Task} (h : t.requirements.gated = true) (r : Resource) :
    t.amount r = 0 := by
  rw [Task.amount, t.requirements.eq_null_of_gated h, ResourceConsumer.amount_nullConsumer]

/-- How much of a resource some tasks use together. -/
def used (r : Resource) (tasks : List Task) : ℤ :=
  (tasks.map fun t => t.amount r).sum

@[simp] theorem used_nil (r : Resource) : used r [] = 0 := rfl

@[simp] theorem used_cons (r : Resource) (t : Task) (tasks : List Task) :
    used r (t :: tasks) = t.amount r + used r tasks :=
  sum_cons

theorem used_append (r : Resource) (tasks tasks' : List Task) :
    used r (tasks ++ tasks') = used r tasks + used r tasks' := by
  rw [used, map_append, sum_append]
  rfl

theorem used_perm (r : Resource) {tasks tasks' : List Task} (h : tasks.Perm tasks') :
    used r tasks = used r tasks' :=
  (h.map _).sum_eq

theorem used_nonneg (r : Resource) (tasks : List Task) : 0 ≤ used r tasks := by
  refine sum_nonneg fun x hx => ?_
  obtain ⟨t, -, rfl⟩ := mem_map.mp hx
  exact t.amount_nonneg r

/-- The merged consumer of some tasks. -/
def total (tasks : List Task) : ResourceConsumer :=
  tasks.foldl (fun c t => c.merge t.requirements.consumer) nullConsumer

/-- **The sum of consumers** has the sum of each resource, wrapped around. -/
theorem amount_total (tasks : List Task) (r : Resource) :
    (total tasks).amount r = wrap (used r tasks) := by
  have hf (c : ResourceConsumer) (x : ℤ) (hc : c.amount r = wrap x) :
      (tasks.foldl (fun c t => c.merge t.requirements.consumer) c).amount r =
        wrap (x + used r tasks) := by
    induction tasks generalizing c x with
    | nil => rw [used_nil, Int.add_zero]; exact hc
    | cons t tasks ih =>
      have hm : (c.merge t.requirements.consumer).amount r = wrap (x + t.amount r) := by
        rw [amount_merge, hc, wrap_wrap_add]
        rfl
      rw [foldl_cons, ih _ _ hm, used_cons, Int.add_assoc]
  have hn := hf nullConsumer 0 (amount_nullConsumer r)
  rwa [Int.zero_add] at hn

/-! ### The monitor -/

/-- The resources of a monitor. -/
structure Monitor where
  available : ResourceConsumer
  valid : available.Valid

namespace Monitor

variable (m : Monitor)

/-- How much of a resource is available. A licence that the licence manager does not know is
not limited. -/
def limit : Resource → ℤ
  | .cpus => m.available.cpus
  | .memory => m.available.memory
  | .licence feature => m.available.licences.getOrElse feature maxValue

theorem isCount_limit (r : Resource) : IsCount (m.limit r) := by
  cases r with
  | cpus => exact m.valid.cpus
  | memory => exact m.valid.memory
  | licence feature => exact m.valid.isCount_getOrElse feature (by decide)

/-- The tasks together fit into what is available. -/
def check (cons : List Task) : Bool :=
  !(total cons).usesMoreThan m.available

/-- Model of `canStart`, with the answer of the task itself if it overrides it. -/
def canStart (cons : List Task) (t : Task) (gate : Bool) : Bool :=
  (!t.requirements.gated || gate) && m.check (cons.insert t)

def doStart (cons : List Task) (t : Task) (gate : Bool) : List Task :=
  if m.canStart cons t gate then cons.insert t else cons

def didFinish (cons : List Task) (t : Task) : List Task :=
  cons.erase t

/-- Some tasks use no more of a resource than is available. -/
def Fits (cons : List Task) (r : Resource) : Prop :=
  used r cons ≤ m.limit r

/-- **What the monitor checks**, unless a sum overflows: CPUs and licences. -/
theorem check_iff {cons : List Task} (h : ∀ r, used r cons < 2 ^ 31) :
    m.check cons = true ↔ m.Fits cons .cpus ∧ ∀ feature, m.Fits cons (.licence feature) := by
  have ham (r : Resource) : (total cons).amount r = used r cons := by
    rw [amount_total, wrap_of_lt (used_nonneg r cons) (h r)]
  have hc : (total cons).cpus = used .cpus cons := ham .cpus
  have hl (k : String) : (total cons).licences.getOrElse k 0 = used (.licence k) cons :=
    ham (.licence k)
  simp only [check, usesMoreThan, hc, hl, Bool.not_eq_true', Bool.or_eq_false_iff,
    decide_eq_false_iff_not, not_lt, any_eq_false, decide_eq_true_eq]
  refine and_congr_right fun _ => ⟨fun hke feature => ?_, fun ha k _ => ha k⟩
  by_cases hk : feature ∈ (total cons).licences.keys
  · exact hke feature hk
  -- a licence that no consumer names
  have hz := hl feature
  rw [Licences.getOrElse_of_not_mem hk] at hz
  rw [Fits, ← hz]
  exact (m.isCount_limit _).1

end Monitor

end Tapasco.Tasks
