import Tapasco.IrqHandler

/-!
# Requesting the Interrupts of the Controllers

When a device is initialised, `zynq_irq_init` and `pcie_aws_irqs_init` request an interrupt line
for each interrupt controller, with a pointer to the controller's entry in `intc_bases` as the
cookie. If a request fails they give back what they have; `zynq_irq_exit` and
`pcie_aws_irqs_exit` give everything back in the end. A line is identified by its number and its
cookie in `request_irq` and `free_irq`.

The two platforms differ in how they number their lines, and only a Zynq may lack a controller.
The direct lines of an AWS device, which are requested elsewhere, are left out.
-/

open Tapasco.Irq List

namespace Tapasco.IrqSetup

/-- A call of the kernel. The cookie is the index in `intc_bases`. -/
inductive Call where
  /-- `zynq_init_intc`. -/
  | initIntc (intc : ℕ)
  /-- `request_irq`, and what it returns. -/
  | requestIrq (irq : ℤ) (cookie : ℕ) (err : ℤ)
  | disableIrq (irq : ℤ)
  | freeIrq (irq : ℤ) (cookie : ℕ)

/-- The entry of a controller in `intc_bases`. -/
structure IntcBase where
  intc : ℕ
  start : ℕ
  id : ℕ

structure Setup where
  requestedIrqNum : ℤ
  intcBases : ℕ → Option IntcBase
  calls : List Call

/-- What is different on the two platforms: the line of a controller, when some were requested
before; its entry, if there is one; whether its registers are initialised; and whether lines are
disabled before they are freed. -/
structure Platform where
  irq : ℕ → ℤ → ℤ
  base : ℕ → Option IntcBase
  inits : Bool
  disables : Bool

/-- A Zynq. `vector` is `irq_of_parse_and_map`, `plat` the address of the mapping, and `offset`
the component base of a controller. -/
def zynqPlatform (vector : ℤ → ℤ) (plat : ℕ) (offset : ℕ → Option ℕ) : Platform where
  irq _ requested := vector requested
  base i := (offset i).map fun o => ⟨plat + o, i * irqsPerController, i⟩
  inits := true
  disables := true

/-- An AWS device. `vector` is `pci_irq_vector`, and `ackRegister` the address of the registers. -/
def awsPlatform (vector : ℤ → ℤ) (ackRegister : ℕ) : Platform where
  irq i _ := vector (numDirectIrqs + i)
  base i := some ⟨ackRegister + 4 * i, i * irqsPerController + numDirectIrqs, i⟩
  inits := false
  disables := false

section

variable (p : Platform) (err : ℕ → ℤ)

/-- The body of the unwinding loop. -/
def release (irq : ℤ) (k : ℕ) (s : Setup) : Setup :=
  { s with
    requestedIrqNum := k
    calls := s.calls ++ (if p.disables then [.disableIrq irq] else []) ++ [.freeIrq irq k] }

/-- The unwinding loop, `while (--requested_irq_num >= 0)`. -/
def unwind (irq : ℤ) : ℕ → Setup → Setup
  | 0, s => { s with requestedIrqNum := -1 }
  | k + 1, s => unwind irq k (release p irq k s)

def request (i : ℕ) (b : IntcBase) (s : Setup) : Setup where
  requestedIrqNum := s.requestedIrqNum + 1
  intcBases := Function.update s.intcBases i (some b)
  calls := s.calls ++ (if p.inits then [.initIntc b.intc] else []) ++
    [.requestIrq (p.irq i s.requestedIrqNum) i (err i)]

/-- The loop over the controllers from number `i` on. `err` is what the requests return. -/
def initLoop : ℕ → ℕ → ℤ → Setup → ℤ × Setup
  | 0, _, retval, s => (retval, s)
  | n + 1, i, retval, s =>
    match p.base i with
    | none => initLoop n (i + 1) retval s
    | some b =>
      if err i = 0 then initLoop n (i + 1) 0 (request p err i b s)
      else
        (err i, unwind p (p.irq i s.requestedIrqNum) (s.requestedIrqNum + 1).toNat
          (request p err i b s))

/-- The setup of a number of controllers, after `retval` was returned by what came before. -/
def irqInit (n : ℕ) (retval : ℤ) : ℤ × Setup :=
  initLoop p err n 0 retval ⟨0, fun _ => none, []⟩

/-- The loop of the exit functions, `while (requested_irq_num)`. -/
def irqExit : ℕ → Setup → Setup
  | 0, s => s
  | k + 1, s => irqExit k (release p (p.irq k k) k s)

end

/-- `zynq_irq_init`, for the given number of controllers. -/
def zynqIrqInit (vector : ℤ → ℤ) (plat : ℕ) (offset : ℕ → Option ℕ) (err : ℕ → ℤ) (n : ℕ) :
    ℤ × Setup :=
  irqInit (zynqPlatform vector plat offset) err n 0

/-- `pcie_aws_irqs_init`, for the given number of controllers. `configured` is the result of
`aws_ec2_configure_xdma`. -/
def awsIrqsInit (vector : ℤ → ℤ) (ackRegister : ℕ) (configured : ℤ) (err : ℕ → ℤ) (n : ℕ) :
    ℤ × Setup :=
  irqInit (awsPlatform vector ackRegister) err n configured

/-! ### What was granted and what was freed -/

/-- The lines that were granted, with their cookies. -/
def Call.granted? : Call → Option (ℤ × ℕ)
  | .requestIrq irq cookie err => if err = 0 then some (irq, cookie) else none
  | _ => none

/-- The lines that were freed, with their cookies. -/
def Call.freed? : Call → Option (ℤ × ℕ)
  | .freeIrq irq cookie => some (irq, cookie)
  | _ => none

def Call.isRefused : Call → Bool
  | .requestIrq _ _ err => err ≠ 0
  | _ => false

namespace Setup

def granted (s : Setup) : List (ℤ × ℕ) :=
  s.calls.filterMap Call.granted?

def freed (s : Setup) : List (ℤ × ℕ) :=
  s.calls.filterMap Call.freed?

def failed (s : Setup) : Bool :=
  s.calls.any Call.isRefused

/-- **The setup rolls back exactly**: if a request fails, every line granted before is freed once,
with its own number and cookie, and no other. -/
def RollsBack (s : Setup) : Prop :=
  s.failed = true → s.freed.Perm s.granted

end Setup

section Calls

variable (p : Platform) (err : ℕ → ℤ) (s : Setup)

theorem granted_request (i : ℕ) (b : IntcBase) :
    (request p err i b s).granted =
      s.granted ++ if err i = 0 then [(p.irq i s.requestedIrqNum, i)] else [] := by
  rw [Setup.granted, request, filterMap_append, filterMap_append, ← Setup.granted]
  by_cases h : err i = 0 <;> cases p.inits <;> simp [Call.granted?, h]

theorem freed_request (i : ℕ) (b : IntcBase) : (request p err i b s).freed = s.freed := by
  rw [Setup.freed, request, filterMap_append, filterMap_append, ← Setup.freed]
  cases p.inits <;> simp [Call.freed?]

theorem failed_request (i : ℕ) (b : IntcBase) :
    (request p err i b s).failed = (s.failed || decide (err i ≠ 0)) := by
  rw [Setup.failed, request, any_append, any_append, ← Setup.failed]
  cases p.inits <;> simp [Call.isRefused]

theorem granted_release (irq : ℤ) (k : ℕ) : (release p irq k s).granted = s.granted := by
  rw [Setup.granted, release, filterMap_append, filterMap_append, ← Setup.granted]
  cases p.disables <;> simp [Call.granted?]

theorem freed_release (irq : ℤ) (k : ℕ) : (release p irq k s).freed = s.freed ++ [(irq, k)] := by
  rw [Setup.freed, release, filterMap_append, filterMap_append, ← Setup.freed]
  cases p.disables <;> simp [Call.freed?]

theorem failed_release (irq : ℤ) (k : ℕ) : (release p irq k s).failed = s.failed := by
  rw [Setup.failed, release, any_append, any_append, ← Setup.failed]
  cases p.disables <;> simp [Call.isRefused]

end Calls

section Unwind

variable (p : Platform) (err : ℕ → ℤ)

theorem unwind_spec (irq : ℤ) (k : ℕ) (s : Setup) :
    (unwind p irq k s).granted = s.granted ∧ (unwind p irq k s).failed = s.failed ∧
      (unwind p irq k s).freed = s.freed ++ (List.range k).reverse.map fun c => (irq, c) := by
  induction k generalizing s with
  | zero => exact ⟨rfl, rfl, (append_nil _).symm⟩
  | succ k ih =>
    obtain ⟨hg, hf, hfr⟩ := ih (release p irq k s)
    rw [unwind, hg, hf, hfr, granted_release, failed_release, freed_release,
      append_assoc, range_succ, reverse_append, map_append]
    exact ⟨rfl, rfl, rfl⟩

section Steps

variable {p err} {i : ℕ} (n : ℕ) (retval : ℤ) (s : Setup)

theorem initLoop_none (hb : p.base i = none) :
    initLoop p err (n + 1) i retval s = initLoop p err n (i + 1) retval s := by
  rw [initLoop, hb]

theorem initLoop_granted {b : IntcBase} (hb : p.base i = some b) (he : err i = 0) :
    initLoop p err (n + 1) i retval s = initLoop p err n (i + 1) 0 (request p err i b s) := by
  rw [initLoop, hb]
  exact if_pos he

theorem initLoop_refused {b : IntcBase} (hb : p.base i = some b) (he : err i ≠ 0) :
    initLoop p err (n + 1) i retval s =
      (err i, unwind p (p.irq i s.requestedIrqNum) (s.requestedIrqNum + 1).toNat
        (request p err i b s)) := by
  rw [initLoop, hb]
  exact if_neg he

end Steps

/-- The state of the loop over the controllers: nothing was refused or freed, and the number of
lines is that of the requests. -/
structure Granting (s : Setup) : Prop where
  failed : s.failed = false
  freed : s.freed = []
  count : s.requestedIrqNum = s.granted.length

theorem granting_request {s : Setup} (h : Granting s) {i : ℕ} (he : err i = 0) (b : IntcBase) :
    Granting (request p err i b s) := by
  refine ⟨?_, ?_, ?_⟩
  · rw [failed_request, h.failed]
    simp [he]
  · rw [freed_request, h.freed]
  · rw [granted_request, if_pos he, length_append]
    have hc := h.count
    simp [request, hc]

theorem granting_initLoop {n i : ℕ} (he : ∀ j, i ≤ j → j < i + n → (p.base j).isSome → err j = 0)
    (retval : ℤ) {s : Setup} (h : Granting s) : Granting (initLoop p err n i retval s).2 := by
  induction n generalizing i retval s with
  | zero => exact h
  | succ n ih =>
    have hr : ∀ j, i + 1 ≤ j → j < i + 1 + n → (p.base j).isSome → err j = 0 :=
      fun j hle hlt => he j (by omega) (by omega)
    cases hb : p.base i with
    | none =>
      rw [initLoop_none n retval s hb]
      exact ih hr retval h
    | some b =>
      have hz : err i = 0 := he i (by omega) (by omega) (by rw [hb]; rfl)
      rw [initLoop_granted n retval s hb hz]
      exact ih hr 0 (granting_request p err h hz b)

/-- **After a failed request** as many lines are freed as were requested, all with the number of the
failed one. -/
theorem freed_of_failure {n i : ℕ}
    (he : ∃ j, i ≤ j ∧ j < i + n ∧ (p.base j).isSome ∧ err j ≠ 0) (retval : ℤ) {s : Setup}
    (h : Granting s) :
    (initLoop p err n i retval s).2.failed = true ∧ ∃ j irq, i ≤ j ∧ j < i + n ∧ err j ≠ 0 ∧
      (initLoop p err n i retval s).1 = err j ∧
      (initLoop p err n i retval s).2.freed =
        (List.range ((initLoop p err n i retval s).2.granted.length + 1)).reverse.map
          fun c => (irq, c) := by
  induction n generalizing i retval s with
  | zero =>
    obtain ⟨j, hle, hlt, -⟩ := he
    omega
  | succ n ih =>
    obtain ⟨j, hle, hlt, hs, hne⟩ := he
    cases hb : p.base i with
    | none =>
      have hij : i ≠ j := by
        rintro rfl
        rw [hb] at hs
        simp at hs
      rw [initLoop_none n retval s hb]
      obtain ⟨hf, j', irq, hle', hlt', hsp⟩ :=
        ih (i := i + 1) ⟨j, by omega, by omega, hs, hne⟩ retval h
      exact ⟨hf, j', irq, by omega, by omega, hsp⟩
    | some b =>
      by_cases hz : err i = 0
      · have hij : i ≠ j := fun heq => hne (heq ▸ hz)
        rw [initLoop_granted n retval s hb hz]
        obtain ⟨hf, j', irq, hle', hlt', hsp⟩ := ih (i := i + 1)
          ⟨j, by omega, by omega, hs, hne⟩ 0 (granting_request p err h hz b)
        exact ⟨hf, j', irq, by omega, by omega, hsp⟩
      rw [initLoop_refused n retval s hb hz]
      obtain ⟨hg, hf, hfr⟩ := unwind_spec p (p.irq i s.requestedIrqNum)
        (s.requestedIrqNum + 1).toNat (request p err i b s)
      have hc : (s.requestedIrqNum + 1).toNat = s.granted.length + 1 := by
        rw [h.count]
        omega
      refine ⟨?_, i, p.irq i s.requestedIrqNum, le_refl i, by omega, hz, rfl, ?_⟩
      · rw [hf, failed_request, decide_eq_true hz, Bool.or_true]
      · rw [hfr, hg, freed_request, granted_request, if_neg hz, h.freed, hc, append_nil, nil_append]

theorem rollsBack_irqInit_iff (n : ℕ) (retval : ℤ) :
    (irqInit p err n retval).2.RollsBack ↔ ∀ i < n, (p.base i).isSome → err i = 0 := by
  have hs : Granting ⟨0, fun _ => none, []⟩ := ⟨rfl, rfl, rfl⟩
  constructor
  · intro h i hi hso
    by_contra hne
    obtain ⟨hf, j, irq, -, -, -, -, hfr⟩ :=
      freed_of_failure p err (n := n) ⟨i, Nat.zero_le i, by omega, hso, hne⟩ retval hs
    have hl := (h hf).length_eq
    rw [irqInit, hfr, length_map, length_reverse, length_range] at hl
    omega
  · intro he hf
    have hg := granting_initLoop p err (n := n) (i := 0)
      (fun j _ hlt => he j (by omega)) retval hs
    exact absurd (hg.failed.symm.trans hf) (by simp)

end Unwind

/-- **Interrupt setup**: for every number of controllers, every numbering of the lines and every
outcome of the requests, both functions roll back exactly only if no request fails. -/
theorem rollsBack_iff (vector : ℤ → ℤ) (plat ackRegister : ℕ) (offset : ℕ → Option ℕ)
    (configured : ℤ) (err : ℕ → ℤ) (n : ℕ) :
    ((zynqIrqInit vector plat offset err n).2.RollsBack ↔ ∀ i < n, (offset i).isSome → err i = 0) ∧
      ((awsIrqsInit vector ackRegister configured err n).2.RollsBack ↔ ∀ i < n, err i = 0) := by
  constructor
  · rw [zynqIrqInit, rollsBack_irqInit_iff]
    simp only [zynqPlatform, Option.isSome_map]
  · rw [awsIrqsInit, rollsBack_irqInit_iff]
    simp only [awsPlatform, Option.isSome_some, forall_const]

/-- The second of three requests fails: it is freed, and the first line is freed with the number of
the second. -/
theorem first_line_freed_as_second :
    (zynqIrqInit (· + 50) 0 some (fun i => if i = 1 then -16 else 0) 3).2.granted = [(50, 0)] ∧
      (zynqIrqInit (· + 50) 0 some (fun i => if i = 1 then -16 else 0) 3).2.freed =
        [(51, 1), (51, 0)] ∧
      ¬ (zynqIrqInit (· + 50) 0 some (fun i => if i = 1 then -16 else 0) 3).2.RollsBack ∧
      (awsIrqsInit (· + 50) 0 0 (fun i => if i = 1 then -16 else 0) 3).2.granted = [(54, 0)] ∧
      (awsIrqsInit (· + 50) 0 0 (fun i => if i = 1 then -16 else 0) 3).2.freed =
        [(55, 1), (55, 0)] ∧
      ¬ (awsIrqsInit (· + 50) 0 0 (fun i => if i = 1 then -16 else 0) 3).2.RollsBack := by
  refine ⟨by decide, by decide, fun h => ?_, by decide, by decide, fun h => ?_⟩
  · exact absurd (h (by decide)).length_eq (by decide)
  · exact absurd (h (by decide)).length_eq (by decide)

/-! ### The exit functions -/

section Exit

variable (p : Platform) (err : ℕ → ℤ)

theorem freed_irqExit (k : ℕ) (s : Setup) :
    (irqExit p k s).freed = s.freed ++ (List.range k).reverse.map fun c : ℕ => (p.irq c c, c) := by
  induction k generalizing s with
  | zero => exact (append_nil _).symm
  | succ k ih =>
    rw [irqExit, ih, freed_release, append_assoc, range_succ, reverse_append, map_append]
    rfl

theorem granted_initLoop {n i : ℕ} (hba : ∀ j, (p.base j).isSome) (he : ∀ j, err j = 0)
    (retval : ℤ) {s : Setup} (hc : s.requestedIrqNum = i) :
    (initLoop p err n i retval s).2.granted =
        s.granted ++ (List.range' i n).map (fun c : ℕ => (p.irq c c, c)) ∧
      (initLoop p err n i retval s).2.requestedIrqNum = i + n := by
  induction n generalizing i retval s with
  | zero => exact ⟨(append_nil _).symm, by rw [initLoop, hc]; simp⟩
  | succ n ih =>
    obtain ⟨b, hb⟩ := Option.isSome_iff_exists.mp (hba i)
    have hn : (request p err i b s).requestedIrqNum = (i + 1 : ℕ) := by
      rw [request, hc]
      rfl
    obtain ⟨hg, hnu⟩ := ih 0 hn
    rw [initLoop_granted n retval s hb (he i)]
    refine ⟨?_, by omega⟩
    rw [hg, granted_request, if_pos (he i), hc, range'_succ, map_cons,
      append_assoc, singleton_append]

/-- **The exit functions** free every granted line, with its own number and cookie, where no
controller is missing. -/
theorem exit_frees_granted (hb : ∀ i, (p.base i).isSome) (he : ∀ i, err i = 0) (n : ℕ)
    (retval : ℤ) :
    (irqExit p (irqInit p err n retval).2.requestedIrqNum.toNat
      (irqInit p err n retval).2).freed.Perm (irqInit p err n retval).2.granted := by
  obtain ⟨hgr, hn⟩ := granted_initLoop p err (n := n) (i := 0) hb he retval
    (s := ⟨0, fun _ => none, []⟩) rfl
  have hg := granting_initLoop p err (fun j _ _ _ => he j) retval
    (i := 0) (n := n) (s := ⟨0, fun _ => none, []⟩) ⟨rfl, rfl, rfl⟩
  rw [freed_irqExit, irqInit, hn, hgr, hg.freed, map_reverse]
  have hr : ((0 : ℕ) + (n : ℤ)).toNat = n := by simp
  rw [hr, ← range_eq_range']
  exact reverse_perm _

end Exit

theorem exit_frees_granted_aws :
    (irqExit (awsPlatform (· + 50) 0) 3
      (awsIrqsInit (· + 50) 0 0 (fun _ => 0) 3).2).freed.Perm [(54, 0), (55, 1), (56, 2)] :=
  exit_frees_granted (awsPlatform (· + 50) 0) (fun _ => 0) (fun _ => rfl) (fun _ => rfl) 3 0

end Tapasco.IrqSetup
