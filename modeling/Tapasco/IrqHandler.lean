import Tapasco.Lib.Bits
import Tapasco.Lib.Cursor

/-!
# The Interrupt Handlers of the Kernel Module

This module embeds `zynq_irq_handler` of `zynq_irq.c` and `aws_irq_handler` of
`pcie_irq_aws.c`. A controller collects 32 interrupts in one status register. The handler
reads the register until it is zero, visits the set bits of each word it reads, and walks
the list of registered interrupts along with them: for each bit it moves the cursor
`m_start` up to the interrupt's number and signals the eventfd of the mapping found there.

The two handlers differ in two places. The Zynq one acknowledges each word it read, and it
clears a bit it has handled by `1U << slot` after the controller's first number was
added to `slot`; the AWS one shifts by the position in the word. Shifting by the
width of the type or more has no defined result, so the Zynq handler has no defined
behaviour for a controller other than the first.

Both handlers keep the cursor from one word to the next, although the bits of the next
word start from the lowest again.
-/

open Bits Cursor List

namespace Tapasco.Irq

def irqsPerController : ℕ := 32

/-- `NUM_DIRECT_IRQS`: the interrupts of an AWS device that bypass the controllers. -/
def numDirectIrqs : ℕ := 4

/-- A registered interrupt with the eventfd it signals. -/
structure IrqMapping where
  irqNo : ℕ
  eventfd : ℕ
  deriving DecidableEq

/-- What a controller's handler is given: the first number of the controller, and the registered
interrupts from its cached mapping on, empty if the pointer is null. -/
structure IrqController where
  start : ℕ
  mapping : List IrqMapping

/-- The list from the smallest registered number of the controller on. -/
def cachedMapping (irqs : List IrqMapping) (start : ℕ) : List IrqMapping :=
  match irqs.dropWhile fun m => decide (m.irqNo < start) with
  | [] => []
  | m :: l => if m.irqNo < start + irqsPerController then m :: l else []

/-- A controller of the Zynq as `zynq_irq_init` and the registrations set it up. -/
def zynqController (irqs : List IrqMapping) (k : ℕ) : IrqController :=
  ⟨k * irqsPerController, cachedMapping irqs (k * irqsPerController)⟩

/-- A controller of an AWS device, whose numbers follow the direct interrupts. -/
def awsController (irqs : List IrqMapping) (k : ℕ) : IrqController :=
  ⟨k * irqsPerController + numDirectIrqs,
    cachedMapping irqs (k * irqsPerController + numDirectIrqs)⟩

/-- The state of a running handler: the cursor, and what was signalled and acknowledged
so far. -/
structure Service where
  cursor : List IrqMapping
  signalled : List IrqMapping
  acked : List (BitVec 32)

/-- Why a handler has no result. -/
inductive Stuck where
  | undefinedShift
  | fuel

/-- `1U << n`. -/
def shiftOne (n : ℕ) : Option (BitVec 32) :=
  if n < 32 then some (1#32 <<< n) else none

/-- Move the cursor to the interrupt number and signal it if it is registered. -/
def serveSlot (s : Service) (slot : ℕ) : Service :=
  let cursor := advance IrqMapping.irqNo slot s.cursor
  { s with cursor := cursor, signalled := s.signalled ++ hit IrqMapping.irqNo slot cursor }

section

variable (shift : ℕ → ℕ) (start : ℕ)

/-- The loop over the set bits of a status word that is not zero. -/
def bitLoop : ℕ → BitVec 32 → Service → Except Stuck Service
  | 0, _, _ => .error .fuel
  | fuel + 1, status, s =>
    let slot := ffs status - 1
    let s := serveSlot s (slot + start)
    match shiftOne (shift slot) with
    | none => .error .undefinedShift
    | some bit => if status ^^^ bit = 0 then .ok s else bitLoop fuel (status ^^^ bit) s

/-- The loop over the words that are read from the controller. -/
def readLoop (ack : Bool) : List (BitVec 32) → Service → Except Stuck Service
  | [], s => .ok s
  | status :: reads, s =>
    if status = 0 then .ok s
    else
      match bitLoop shift start 32 status
          { s with acked := if ack then s.acked ++ [status] else s.acked } with
      | .ok s' => readLoop ack reads s'
      | .error e => .error e

end

/-- The handlers, with the shift that clears a handled bit and whether words are
acknowledged. `reads` are the words the controller returns before it returns zero. -/
def irqHandler (shift : ℕ → ℕ) (ack : Bool) (c : IrqController) (reads : List (BitVec 32)) :
    Except Stuck Service :=
  match c.mapping with
  | [] => .ok ⟨[], [], []⟩
  | m :: l => readLoop shift c.start ack reads ⟨m :: l, [], []⟩

def zynqIrqHandler (c : IrqController) (reads : List (BitVec 32)) : Except Stuck Service :=
  irqHandler (fun slot => slot + c.start) true c reads

def awsIrqHandler (c : IrqController) (reads : List (BitVec 32)) : Except Stuck Service :=
  irqHandler (fun slot => slot) false c reads

/-! ### The loops visit the set bits -/

/-- The words that are handled: those before the first zero. -/
def statusWords (reads : List (BitVec 32)) : List (BitVec 32) :=
  reads.takeWhile fun w => decide (w ≠ 0)

variable {w : BitVec 32}

theorem statusWords_cons (hw : w ≠ 0) (reads : List (BitVec 32)) :
    statusWords (w :: reads) = w :: statusWords reads :=
  takeWhile_cons_of_pos (decide_eq_true hw)

/-- The interrupt numbers of the set bits of a word. -/
def slots (start : ℕ) (w : BitVec 32) : List ℕ :=
  (setBits w).map (· + start)

theorem foldl_serveSlot (ss : List ℕ) (s : Service) :
    (ss.foldl serveSlot s).signalled = s.signalled ++ serve IrqMapping.irqNo s.cursor ss := by
  induction ss generalizing s with
  | nil => exact (append_nil _).symm
  | cons n ss ih => rw [foldl_cons, ih, serve, serveSlot, append_assoc]

theorem foldl_serveSlot_acked (ss : List ℕ) (s : Service) (a : List (BitVec 32)) :
    ss.foldl serveSlot { s with acked := a } = { ss.foldl serveSlot s with acked := a } := by
  induction ss generalizing s with
  | nil => rfl
  | cons n ss ih => exact ih (serveSlot s n)

theorem ffs_sub_one_lt (hw : w ≠ 0) : ffs w - 1 < 32 := by
  have hmem : ffs w - 1 ∈ setBits w := by
    rw [setBits_eq_cons hw]
    exact mem_cons_self
  exact BitVec.lt_of_getLsbD (mem_setBits.mp hmem)

section

variable {shift : ℕ → ℕ} (hshift : ∀ i < 32, shift i = i) (start : ℕ)

include hshift

theorem bitLoop_eq {fuel : ℕ} {w : BitVec 32} (hw : w ≠ 0)
    (hf : (setBits w).length ≤ fuel) (s : Service) :
    bitLoop shift start fuel w s = .ok ((slots start w).foldl serveSlot s) := by
  induction fuel generalizing w s with
  | zero =>
    have hn := length_eq_zero_iff.mp (Nat.le_zero.mp hf)
    exact absurd (setBits_eq_nil_iff.mp hn) hw
  | succ fuel ih =>
    have hlt := ffs_sub_one_lt hw
    have hc := setBits_eq_cons hw
    rw [hc, length_cons, Nat.succ_le_succ_iff] at hf
    rw [bitLoop, hshift _ hlt, shiftOne, if_pos hlt, slots, hc, map_cons, foldl_cons]
    by_cases hz : w ^^^ 1#32 <<< (ffs w - 1) = 0
    · have hn : setBits (w ^^^ 1#32 <<< (ffs w - 1)) = [] := setBits_eq_nil_iff.mpr hz
      rw [hn]
      exact if_pos hz
    · exact (if_neg hz).trans (ih hz hf _)

theorem readLoop_eq (ack : Bool) (reads : List (BitVec 32)) (s : Service) :
    readLoop shift start ack reads s =
      .ok { ((statusWords reads).flatMap (slots start)).foldl serveSlot s with
        acked := s.acked ++ if ack then statusWords reads else [] } := by
  induction reads generalizing s with
  | nil => cases ack <;> simp [readLoop, statusWords]
  | cons w reads ih =>
    rw [readLoop]
    by_cases hw : w = 0
    · cases ack <;> simp [hw, statusWords]
    rw [if_neg hw, bitLoop_eq hshift start hw (length_setBits_le w), statusWords_cons hw,
      flatMap_cons, foldl_append]
    simp only [ih, foldl_serveSlot_acked]
    cases ack <;> simp

end

theorem readLoop_undefined {shift : ℕ → ℕ} (hshift : ∀ i, 32 ≤ shift i) (start : ℕ)
    (ack : Bool) {reads : List (BitVec 32)} (hr : statusWords reads ≠ []) (s : Service) :
    readLoop shift start ack reads s = .error .undefinedShift := by
  cases reads with
  | nil => exact absurd rfl hr
  | cons w reads =>
    have hw : w ≠ 0 := by
      rintro rfl
      exact hr rfl
    rw [readLoop, if_neg hw, bitLoop, shiftOne, if_neg (not_lt.mpr (hshift _))]

/-! ### The registered interrupts of a controller -/

/-- The bit of the interrupt is set in the word. -/
def pending (start : ℕ) (w : BitVec 32) (m : IrqMapping) : Bool :=
  decide (start ≤ m.irqNo) && w.getLsbD (m.irqNo - start)

theorem lt_of_pending {start : ℕ} {m : IrqMapping} (h : pending start w m = true) :
    m.irqNo < start + irqsPerController := by
  rw [pending, Bool.and_eq_true, decide_eq_true_eq] at h
  have hlt := BitVec.lt_of_getLsbD h.2
  rw [irqsPerController]
  omega

theorem mem_slots {start : ℕ} {m : IrqMapping} :
    m.irqNo ∈ slots start w ↔ pending start w m = true := by
  rw [slots, mem_map, pending, Bool.and_eq_true, decide_eq_true_eq]
  constructor
  · rintro ⟨i, hi, heq⟩
    rw [← heq, Nat.add_sub_cancel]
    exact ⟨Nat.le_add_left start i, mem_setBits.mp hi⟩
  · rintro ⟨hle, hs⟩
    exact ⟨_, mem_setBits.mpr hs, Nat.sub_add_cancel hle⟩

theorem slots_pairwise (start : ℕ) (w : BitVec 32) : (slots start w).Pairwise (· < ·) :=
  (setBits_pairwise w).map _ fun _ _ h => Nat.add_lt_add_right h start

theorem count_flatMap_slots (start : ℕ) (m : IrqMapping) (ws : List (BitVec 32)) :
    (ws.flatMap (slots start)).count m.irqNo = ws.countP fun w => pending start w m := by
  induction ws with
  | nil => rfl
  | cons w ws ih =>
    have hn : (slots start w).Nodup := (slots_pairwise start w).imp ne_of_lt
    rw [flatMap_cons, count_append, ih, countP_cons, hn.count, add_comm]
    simp only [mem_slots]

section

variable {irqs : List IrqMapping} (hsorted : Sorted IrqMapping.irqNo irqs) (start : ℕ)

include hsorted

theorem mem_dropWhile {m : IrqMapping} :
    m ∈ irqs.dropWhile (fun m => decide (m.irqNo < start)) ↔ m ∈ irqs ∧ start ≤ m.irqNo := by
  induction irqs with
  | nil => simp
  | cons a irqs ih =>
    obtain ⟨ha, hr⟩ := pairwise_cons.mp hsorted
    by_cases hlt : a.irqNo < start
    · rw [dropWhile_cons_of_pos (by simpa using hlt), ih hr, mem_cons]
      constructor
      · exact fun h => ⟨.inr h.1, h.2⟩
      · rintro ⟨rfl | hm, hle⟩
        · exact absurd hle (not_le.mpr hlt)
        · exact ⟨hm, hle⟩
    · rw [dropWhile_cons_of_neg (by simpa using hlt)]
      refine (and_iff_left_of_imp fun hm => ?_).symm
      rcases mem_cons.mp hm with rfl | hm
      · exact not_lt.mp hlt
      · exact (not_lt.mp hlt).trans (ha m hm).le

theorem cachedMapping_cases :
    (cachedMapping irqs start = [] ∧
        ∀ m ∈ irqs, start ≤ m.irqNo → start + irqsPerController ≤ m.irqNo) ∨
      ((∃ m ∈ irqs, start ≤ m.irqNo ∧ m.irqNo < start + irqsPerController) ∧
        Sorted IrqMapping.irqNo (cachedMapping irqs start) ∧
        ∀ m, m ∈ cachedMapping irqs start ↔ m ∈ irqs ∧ start ≤ m.irqNo) := by
  have hmem := fun m => mem_dropWhile hsorted start (m := m)
  have hd : Sorted IrqMapping.irqNo (irqs.dropWhile fun m => decide (m.irqNo < start)) :=
    hsorted.sublist (dropWhile_sublist _)
  rw [cachedMapping]
  cases hl : irqs.dropWhile fun m => decide (m.irqNo < start) with
  | nil =>
    refine .inl ⟨rfl, fun m hm hle => ?_⟩
    have := (hmem m).mpr ⟨hm, hle⟩
    rw [hl] at this
    exact absurd this not_mem_nil
  | cons a l =>
    rw [hl] at hmem hd
    have ha := (hmem a).mp mem_cons_self
    simp only
    split
    · rename_i hlt
      exact .inr ⟨⟨a, ha.1, ha.2, hlt⟩, hd, hmem⟩
    · rename_i hge
      refine .inl ⟨rfl, fun m hm hle => ?_⟩
      rcases mem_cons.mp ((hmem m).mpr ⟨hm, hle⟩) with rfl | hml
      · exact not_lt.mp hge
      · exact (not_lt.mp hge).trans ((pairwise_cons.mp hd).1 m hml).le

end

/-! ### Signalling exactly the pending interrupts -/

/-- The handler returns, and signals every registered interrupt once for each word in which its bit
is set, and nothing else. -/
def SignalsExactly (irqs : List IrqMapping) (start : ℕ) (reads : List (BitVec 32))
    (r : Except Stuck Service) : Prop :=
  ∃ s, r = .ok s ∧ ∀ m, s.signalled.count m =
    if m ∈ irqs then (statusWords reads).countP fun w => pending start w m else 0

/-- No word has the bit of a registered interrupt below a bit of an earlier word, unless
no greater number is registered. -/
def InOrder (irqs : List IrqMapping) (start : ℕ) (reads : List (BitVec 32)) : Prop :=
  (statusWords reads).Pairwise fun v w => ∀ t s, v.getLsbD t = true → w.getLsbD s = true →
    s < t → ∀ m ∈ irqs, m.irqNo = s + start → ∀ n ∈ irqs, n.irqNo ≤ s + start

section

variable {irqs : List IrqMapping} {start : ℕ}

theorem signalsExactly_of_none (hn : ∀ m ∈ irqs, start ≤ m.irqNo →
    start + irqsPerController ≤ m.irqNo) (reads : List (BitVec 32)) (acked : List (BitVec 32)) :
    SignalsExactly irqs start reads (.ok ⟨[], [], acked⟩) ∧ InOrder irqs start reads := by
  constructor
  · refine ⟨_, rfl, fun m => ?_⟩
    rw [count_nil]
    split
    · rename_i hm
      refine (countP_eq_zero.mpr fun w _ hp => ?_).symm
      have hle : start ≤ m.irqNo := by
        rw [pending, Bool.and_eq_true, decide_eq_true_eq] at hp
        exact hp.1
      exact absurd (lt_of_pending hp) (not_lt.mpr (hn m hm hle))
    · rfl
  · refine pairwise_of_forall fun v w t s _ hs _ m hm hk => ?_
    have hlt := BitVec.lt_of_getLsbD hs
    have hge := hn m hm (by omega)
    rw [irqsPerController] at hge
    omega

section

variable {c : List IrqMapping} (hmem : ∀ m, m ∈ c ↔ m ∈ irqs ∧ start ≤ m.irqNo)

include hmem

theorem count_eq_iff (reads : List (BitVec 32)) :
    (∀ m, (serve IrqMapping.irqNo c ((statusWords reads).flatMap (slots start))).count m =
        if m ∈ irqs then (statusWords reads).countP fun w => pending start w m else 0) ↔
      ∀ m ∈ c, (serve IrqMapping.irqNo c ((statusWords reads).flatMap (slots start))).count m =
        ((statusWords reads).flatMap (slots start)).count m.irqNo := by
  constructor
  · intro h m hm
    rw [h m, if_pos ((hmem m).mp hm).1, count_flatMap_slots]
  · intro h m
    by_cases hm : m ∈ c
    · rw [h m hm, if_pos ((hmem m).mp hm).1, count_flatMap_slots]
    rw [count_serve_of_not_mem hm]
    split
    · rename_i hi
      refine (countP_eq_zero.mpr fun w _ hp => hm ((hmem m).mpr ⟨hi, ?_⟩)).symm
      rw [pending, Bool.and_eq_true, decide_eq_true_eq] at hp
      exact hp.1
    · rfl

theorem pairwise_findable_iff (reads : List (BitVec 32)) :
    ((statusWords reads).flatMap (slots start)).Pairwise (Findable IrqMapping.irqNo c) ↔
      InOrder irqs start reads := by
  have hw : ∀ w ∈ statusWords reads, (slots start w).Pairwise (Findable IrqMapping.irqNo c) :=
    fun w _ => (slots_pairwise start w).imp fun hlt hgt => absurd hgt (lt_asymm hlt)
  rw [pairwise_flatMap, and_iff_right hw, InOrder]
  refine List.Pairwise.iff fun v w => ?_
  constructor
  · intro h t s ht hs hlt m hm hk n hn
    have hmc := (hmem m).mpr ⟨hm, by omega⟩
    by_cases hnc : n ∈ c
    · refine h (t + start) ?_ (s + start) ?_ (by omega) m hmc hk n hnc
      · exact mem_map_of_mem (mem_setBits.mpr ht)
      · exact mem_map_of_mem (mem_setBits.mpr hs)
    · rw [hmem, not_and, not_le] at hnc
      have := hnc hn
      omega
  · intro h x hx y hy
    obtain ⟨t, ht, rfl⟩ := mem_map.mp hx
    obtain ⟨s, hs, rfl⟩ := mem_map.mp hy
    intro hlt m hm hk n hn
    exact h t s (mem_setBits.mp ht) (mem_setBits.mp hs) (by omega) m ((hmem m).mp hm).1 hk n
      ((hmem n).mp hn).1

end

theorem irqHandler_exact_iff (hsorted : Sorted IrqMapping.irqNo irqs) {shift : ℕ → ℕ}
    (hshift : ∀ i < 32, shift i = i) (ack : Bool) (reads : List (BitVec 32)) :
    SignalsExactly irqs start reads
        (irqHandler shift ack ⟨start, cachedMapping irqs start⟩ reads) ↔
      InOrder irqs start reads := by
  rcases cachedMapping_cases hsorted start with ⟨hn, hno⟩ | ⟨hex, hcs, hmem⟩
  · have hb := signalsExactly_of_none hno reads []
    rw [irqHandler, hn]
    exact iff_of_true hb.1 hb.2
  rw [irqHandler]
  cases hc : cachedMapping irqs start with
  | nil =>
    obtain ⟨m, hm, hle, -⟩ := hex
    have hi := (hmem m).mpr ⟨hm, hle⟩
    rw [hc] at hi
    exact absurd hi not_mem_nil
  | cons a l =>
    rw [hc] at hmem hcs
    have hsi := foldl_serveSlot ((statusWords reads).flatMap (slots start))
      ⟨a :: l, [], []⟩
    rw [nil_append] at hsi
    rw [← pairwise_findable_iff hmem, ← serve_exact_iff hcs, ← count_eq_iff hmem, ← hsi]
    simp only [readLoop_eq hshift]
    constructor
    · rintro ⟨s, hs, hco⟩ m
      rw [← hco m, ← Except.ok.inj hs]
    · exact fun hco => ⟨_, rfl, hco⟩

end

theorem readLoop_of_no_words {shift : ℕ → ℕ} {start : ℕ} {ack : Bool}
    {reads : List (BitVec 32)} (hr : statusWords reads = []) (s : Service) :
    readLoop shift start ack reads s = .ok s := by
  cases reads with
  | nil => rfl
  | cons w reads =>
    have hw : w = 0 := by
      by_contra hne
      rw [statusWords_cons hne] at hr
      exact cons_ne_nil _ _ hr
    rw [readLoop, if_pos hw]

/-- The Zynq handler: a controller other than the first one shifts out of the word at its first
interrupt. -/
theorem zynqIrqHandler_exact_iff {irqs : List IrqMapping}
    (hsorted : Sorted IrqMapping.irqNo irqs) (k : ℕ) (reads : List (BitVec 32)) :
    SignalsExactly irqs (k * irqsPerController) reads
        (zynqIrqHandler (zynqController irqs k) reads) ↔
      InOrder irqs (k * irqsPerController) reads ∧
        (k = 0 ∨ statusWords reads = [] ∨ ∀ m ∈ irqs, m.irqNo / irqsPerController ≠ k) := by
  by_cases hk : k = 0
  · subst hk
    rw [and_iff_left (.inl rfl)]
    refine irqHandler_exact_iff hsorted (fun i _ => ?_) true reads
    rw [zynqController, Nat.zero_mul, add_zero]
  rw [or_iff_right hk, zynqIrqHandler, zynqController, irqHandler]
  rcases cachedMapping_cases hsorted (k * irqsPerController) with
    ⟨hn, hno⟩ | ⟨⟨m, hm, hle, hlt⟩, -, hmem⟩
  · obtain ⟨hex, ho⟩ := signalsExactly_of_none hno reads []
    rw [hn]
    refine iff_of_true hex ⟨ho, .inr fun m hm heq => ?_⟩
    have hge := hno m hm
    rw [irqsPerController] at hge heq
    omega
  have hr : ¬ ∀ m ∈ irqs, m.irqNo / irqsPerController ≠ k := by
    intro h
    have hne := h m hm
    rw [irqsPerController] at hne hle hlt
    omega
  cases hc : cachedMapping irqs (k * irqsPerController) with
  | nil =>
    have hi := (hmem m).mpr ⟨hm, hle⟩
    rw [hc] at hi
    exact absurd hi not_mem_nil
  | cons a l =>
    rw [or_iff_left hr]
    by_cases hre : statusWords reads = []
    · have hco : ∀ m, ([] : List IrqMapping).count m = if m ∈ irqs then
          (statusWords reads).countP (fun w => pending (k * irqsPerController) w m)
          else 0 := by simp [hre]
      refine iff_of_true ⟨_, readLoop_of_no_words hre _, hco⟩ ⟨?_, hre⟩
      rw [InOrder, hre]
      exact List.Pairwise.nil
    · refine iff_of_false ?_ fun h => hre h.2
      rintro ⟨s, hs, -⟩
      have hou : ∀ i, 32 ≤ i + k * irqsPerController := fun i => by
        rw [irqsPerController]
        omega
      have hst := hs.symm.trans (readLoop_undefined hou (k * irqsPerController) true hre _)
      simp at hst

/-- **Interrupt demultiplexing**: a handler signals every pending registered interrupt once for each
word it is set in, and nothing else, exactly when the words are in order; on the Zynq the controller
must also be the first one, or have nothing to signal. -/
theorem demultiplex_exact_iff {irqs : List IrqMapping}
    (hsorted : irqs.Pairwise fun m n => m.irqNo < n.irqNo) (k : Fin 4) (reads : List (BitVec 32)) :
    (SignalsExactly irqs (k * irqsPerController) reads
        (zynqIrqHandler (zynqController irqs k) reads) ↔
      InOrder irqs (k * irqsPerController) reads ∧
        (k = 0 ∨ statusWords reads = [] ∨ ∀ m ∈ irqs, m.irqNo / irqsPerController ≠ k)) ∧
    (SignalsExactly irqs (k * irqsPerController + numDirectIrqs) reads
        (awsIrqHandler (awsController irqs k) reads) ↔
      InOrder irqs (k * irqsPerController + numDirectIrqs) reads) := by
  refine ⟨?_, irqHandler_exact_iff hsorted (fun _ _ => rfl) false reads⟩
  rw [zynqIrqHandler_exact_iff hsorted k reads, Fin.ext_iff]
  rfl

/-- Two interrupts of each back end that arrive in ascending order. -/
theorem demultiplex_exact_iff_ascending :
    SignalsExactly [⟨4, 7⟩, ⟨9, 8⟩] 0 [0x010#32, 0x200#32, 0#32]
        (zynqIrqHandler (zynqController [⟨4, 7⟩, ⟨9, 8⟩] 0) [0x010#32, 0x200#32, 0#32]) ∧
      SignalsExactly [⟨4, 7⟩, ⟨9, 8⟩] 4 [0x001#32, 0x020#32, 0#32]
        (awsIrqHandler (awsController [⟨4, 7⟩, ⟨9, 8⟩] 0) [0x001#32, 0x020#32, 0#32]) := by
  have hsorted : [IrqMapping.mk 4 7, ⟨9, 8⟩].Pairwise fun m n => m.irqNo < n.irqNo := by decide
  -- the bits of the first word lie below those of the second
  have hbelow : ∀ {v w : BitVec 32}, (∀ t ∈ setBits v, ∀ s ∈ setBits w, t ≤ s) →
      statusWords [v, w, 0#32] = [v, w] → ∀ start,
        InOrder [⟨4, 7⟩, ⟨9, 8⟩] start [v, w, 0#32] := by
    intro v w hle hwords start
    rw [InOrder, hwords, pairwise_pair]
    intro t s ht hs hlt
    exact absurd (hle t (mem_setBits.mpr ht) s (mem_setBits.mpr hs)) (not_le.mpr hlt)
  exact ⟨(demultiplex_exact_iff hsorted 0 _).1.mpr ⟨hbelow (by decide) (by decide) 0, .inl rfl⟩,
    (demultiplex_exact_iff hsorted 0 _).2.mpr (hbelow (by decide) (by decide) 4)⟩

/-- An interrupt that becomes pending while a greater one is handled is acknowledged, but not
signalled. The Zynq handler of the second controller shifts out of the word at its first interrupt.
-/
theorem interrupt_lost_below_cursor :
    zynqIrqHandler (zynqController [⟨0, 7⟩, ⟨5, 8⟩] 0) [0x20#32, 0x01#32] =
        .ok ⟨[⟨5, 8⟩], [⟨5, 8⟩], [0x20#32, 0x01#32]⟩ ∧
      awsIrqHandler (awsController [⟨4, 7⟩, ⟨9, 8⟩] 0) [0x20#32, 0x01#32] =
        .ok ⟨[⟨9, 8⟩], [⟨9, 8⟩], []⟩ ∧
      zynqIrqHandler (zynqController [⟨32, 7⟩] 1) [0x01#32] = .error .undefinedShift ∧
      ¬ SignalsExactly [⟨0, 7⟩, ⟨5, 8⟩] 0 [0x20#32, 0x01#32]
        (zynqIrqHandler (zynqController [⟨0, 7⟩, ⟨5, 8⟩] 0) [0x20#32, 0x01#32]) ∧
      ¬ SignalsExactly [⟨4, 7⟩, ⟨9, 8⟩] 4 [0x20#32, 0x01#32]
        (awsIrqHandler (awsController [⟨4, 7⟩, ⟨9, 8⟩] 0) [0x20#32, 0x01#32]) ∧
      ¬ SignalsExactly [⟨32, 7⟩] 32 [0x01#32]
        (zynqIrqHandler (zynqController [⟨32, 7⟩] 1) [0x01#32]) := by
  have hzynq : zynqIrqHandler (zynqController [⟨0, 7⟩, ⟨5, 8⟩] 0) [0x20#32, 0x01#32] =
      .ok ⟨[⟨5, 8⟩], [⟨5, 8⟩], [0x20#32, 0x01#32]⟩ := by rfl
  have haws : awsIrqHandler (awsController [⟨4, 7⟩, ⟨9, 8⟩] 0) [0x20#32, 0x01#32] =
      .ok ⟨[⟨9, 8⟩], [⟨9, 8⟩], []⟩ := by rfl
  have hshift : zynqIrqHandler (zynqController [⟨32, 7⟩] 1) [0x01#32] =
      .error .undefinedShift := by rfl
  refine ⟨hzynq, haws, hshift, ?_, ?_, ?_⟩
  · rintro ⟨s, hs, hcount⟩
    rw [hzynq] at hs
    have h := hcount ⟨0, 7⟩
    rw [← Except.ok.inj hs] at h
    exact absurd h (by decide)
  · rintro ⟨s, hs, hcount⟩
    rw [haws] at hs
    have h := hcount ⟨4, 7⟩
    rw [← Except.ok.inj hs] at h
    exact absurd h (by decide)
  · rintro ⟨s, hs, -⟩
    rw [hshift] at hs
    simp at hs

/-! ### The rounds of the bit loop -/

/-- A round of the loop over the bits: the number of the interrupt that was handled, and the
status word before and after. -/
structure Round where
  slot : ℕ
  before : BitVec 32
  after : BitVec 32

section

variable (shift : ℕ → ℕ) (start : ℕ)

def rounds : ℕ → BitVec 32 → Except Stuck (List Round)
  | 0, _ => .error .fuel
  | fuel + 1, status =>
    let slot := ffs status - 1
    match shiftOne (shift slot) with
    | none => .error .undefinedShift
    | some bit =>
      let round : Round := ⟨slot + start, status, status ^^^ bit⟩
      if status ^^^ bit = 0 then .ok [round]
      else (rounds fuel (status ^^^ bit)).map (round :: ·)

/-- **The loop over the bits** serves the interrupts of its rounds, one after the other. -/
theorem bitLoop_eq_rounds (fuel : ℕ) (w : BitVec 32) (s : Service) :
    bitLoop shift start fuel w s =
      (rounds shift start fuel w).map fun rs => (rs.map Round.slot).foldl serveSlot s := by
  induction fuel generalizing w s with
  | zero => rfl
  | succ fuel ih =>
    rw [bitLoop, rounds]
    cases shiftOne (shift (ffs w - 1)) with
    | none => rfl
    | some bit =>
      dsimp only
      split
      · rfl
      · rw [ih]
        cases rounds shift start fuel (w ^^^ bit) <;> rfl

/-- The round clears the bit of the interrupt that it has handled, and no other. -/
def Round.ClearsHandled (r : Round) : Prop :=
  ∃ i, r.slot = i + start ∧ r.before.getLsbD i = true ∧
    ∀ j, r.after.getLsbD j = (r.before.getLsbD j && decide (j ≠ i))

/-- **The loop over the bits of a status word stops and is local**: it is entered only for words
other than zero, ends after at most as many rounds as there are set bits, and every round clears the
bit that it has handled. -/
def StopsLocally (w : BitVec 32) : Prop :=
  ∃ rs, (if w = 0 then .ok [] else rounds shift start (setBits w).length w) = .ok rs ∧
    rs.length ≤ (setBits w).length ∧ ∀ r ∈ rs, r.ClearsHandled start

end

section

variable {shift : ℕ → ℕ} (hshift : ∀ i < 32, shift i = i) (start : ℕ)

include hshift

theorem exists_rounds_eq {n : ℕ} {w : BitVec 32} (hw : w ≠ 0) (hn : (setBits w).length = n) :
    ∃ rs, rounds shift start n w = .ok rs ∧ rs.length = n ∧ ∀ r ∈ rs, r.ClearsHandled start := by
  induction n generalizing w with
  | zero => exact absurd (setBits_eq_nil_iff.mp (length_eq_zero_iff.mp hn)) hw
  | succ n ih =>
    have hlt := ffs_sub_one_lt hw
    have hc := setBits_eq_cons hw
    have hs : w.getLsbD (ffs w - 1) = true := by
      rw [← mem_setBits, hc]
      exact mem_cons_self
    have hro : Round.ClearsHandled start
        ⟨ffs w - 1 + start, w, w ^^^ 1#32 <<< (ffs w - 1)⟩ := by
      refine ⟨ffs w - 1, rfl, hs, fun j => ?_⟩
      rw [getLsbD_xor_shiftLeft w hlt]
      by_cases hj : j = ffs w - 1
      · rw [hj, hs]
        simp
      · simp [hj]
    rw [hc, length_cons, add_right_cancel_iff] at hn
    simp only [rounds, hshift _ hlt, shiftOne, if_pos hlt]
    by_cases hz : w ^^^ 1#32 <<< (ffs w - 1) = 0
    · rw [if_pos hz]
      have hni : setBits (w ^^^ 1#32 <<< (ffs w - 1)) = [] := setBits_eq_nil_iff.mpr hz
      rw [hni] at hn
      refine ⟨_, rfl, ?_, fun r hr => ?_⟩
      · rw [← hn]
        rfl
      · rw [mem_singleton.mp hr]
        exact hro
    · rw [if_neg hz]
      obtain ⟨rs, hrs, hl, hcl⟩ := ih hz hn
      refine ⟨_ :: rs, by rw [hrs]; rfl, by rw [length_cons, hl], ?_⟩
      exact forall_mem_cons.mpr ⟨hro, hcl⟩

theorem stopsLocally_of_shift (w : BitVec 32) : StopsLocally shift start w := by
  by_cases hw : w = 0
  · exact ⟨[], if_pos hw, Nat.zero_le _, by simp⟩
  · obtain ⟨rs, hr, hl, hc⟩ := exists_rounds_eq hshift start hw rfl
    exact ⟨rs, (if_neg hw).trans hr, hl.le, hc⟩

end

theorem not_stopsLocally {shift : ℕ → ℕ} (hshift : ∀ i, 32 ≤ shift i) (start : ℕ) (hw : w ≠ 0) :
    ¬ StopsLocally shift start w := by
  rintro ⟨rs, hr, -⟩
  rw [if_neg hw, setBits_eq_cons hw, length_cons, rounds, shiftOne,
    if_neg (not_lt.mpr (hshift _))] at hr
  simp at hr

/-- **The bit loop of the handlers** stops and is local on AWS; on the Zynq exactly for the first
controller, and where there is nothing to handle. -/
theorem stopsLocally_iff (irqs : List IrqMapping) (k : ℕ) (w : BitVec 32) :
    StopsLocally (fun slot => slot) (awsController irqs k).start w ∧
      (StopsLocally (fun slot => slot + (zynqController irqs k).start)
          (zynqController irqs k).start w ↔ k = 0 ∨ w = 0) := by
  refine ⟨stopsLocally_of_shift (fun _ _ => rfl) _ w, ?_⟩
  rcases Nat.eq_zero_or_pos k with rfl | hk
  · refine iff_of_true (stopsLocally_of_shift (fun i _ => ?_) _ w) (.inl rfl)
    rw [zynqController, Nat.zero_mul, add_zero]
  rw [or_iff_right (ne_of_gt hk)]
  constructor
  · intro h
    by_contra hw
    refine not_stopsLocally (fun i => ?_) _ hw h
    have hstart : (zynqController irqs k).start = k * 32 := rfl
    omega
  · rintro rfl
    exact ⟨[], if_pos rfl, Nat.zero_le _, by simp⟩

/-- The first interrupt of the second controller of a Zynq: the shift is by the width of the
type. -/
theorem second_controller_shifts_out :
    rounds (fun slot => slot + (zynqController [⟨32, 7⟩] 1).start) 32 1 1#32 =
        .error .undefinedShift ∧
      ¬ StopsLocally (fun slot => slot + (zynqController [⟨32, 7⟩] 1).start)
        (zynqController [⟨32, 7⟩] 1).start 1#32 := by
  exact ⟨rfl, not_stopsLocally (fun i => Nat.le_add_left 32 i) _ (by decide)⟩

end Tapasco.Irq
