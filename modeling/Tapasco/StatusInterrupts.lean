import Tapasco.StatusMessage

/-!
# The Interrupts of a Processing Element

Whether a processing element of the status message has the interrupts of the cell whose
registers it describes. The names of interrupts carry the number of the cell, but
`json_to_status` looks for the number of the register interface, counted over all cells. The
two agree as long as every cell has one register interface.
-/

open List

namespace Tapasco.StatusMessage

open AddressMap JsonInterrupt

/-! ### Interrupt lines -/

/-- The number of interrupt pins of a cell. -/
def pinsAt (pes : List Cell) (i : ℕ) : ℕ :=
  (pes[i]?.map Cell.interruptPins).getD 0

/-- The number of interrupt pins of the cells before a cell. -/
def pinsBefore (pes : List Cell) (i : ℕ) : ℕ :=
  ((pes.take i).map Cell.interruptPins).sum

/-- The interrupts at a stretch of interrupt lines, named by their place in it. -/
def pinInterrupts (lines : List ℕ) (start pins : ℕ) : List Interrupt :=
  ((lines.drop start).take pins).zipIdx.map fun m => ⟨m.1, Nat.toDigits 10 m.2⟩

/-- **The interrupts of a cell**: the lines to which its pins were connected, in the order of
`arch_connect_interrupts`. -/
def cellInterrupts (intc : Intc) (before after : List (List Char × Clk)) (pes : List Cell)
    (i : ℕ) : List Interrupt :=
  pinInterrupts
    (intMapping intc 0 0 ((before ++ archConnectInterrupts 0 pes ++ after).map Prod.snd))
    (before.length + pinsBefore pes i) (pinsAt pes i)

/-! ### Names -/

theorem isDigit_of_mem {n : ℕ} : ∀ c ∈ Nat.toDigits 10 n, c.isDigit = true := fun _ hc =>
  Nat.isDigit_of_mem_toDigits (by decide) (by decide) hc

theorem takeWhile_toDigits_append (n : ℕ) (l : List Char) :
    (Nat.toDigits 10 n ++ l).takeWhile Char.isDigit =
      Nat.toDigits 10 n ++ l.takeWhile Char.isDigit :=
  takeWhile_append_of_pos isDigit_of_mem

theorem peRe_intrName (i sub : ℕ) :
    peRe (intrName i sub) = some (Nat.toDigits 10 i, Nat.toDigits 10 sub) := by
  have hf : (Nat.toDigits 10 i ++ '_' :: Nat.toDigits 10 sub).takeWhile Char.isDigit =
      Nat.toDigits 10 i := by
    rw [takeWhile_toDigits_append, takeWhile_cons_of_neg (by decide), append_nil]
  have hr : (Nat.toDigits 10 i ++ '_' :: Nat.toDigits 10 sub).dropWhile Char.isDigit =
      '_' :: Nat.toDigits 10 sub := by
    rw [dropWhile_append_of_pos isDigit_of_mem, dropWhile_cons_of_neg (by decide)]
  have hs : (Nat.toDigits 10 sub).takeWhile Char.isDigit = Nat.toDigits 10 sub := by
    have h := takeWhile_toDigits_append sub []
    rwa [takeWhile_nil, append_nil] at h
  have hst : peReStart (intrName i sub) =
      some (Nat.toDigits 10 i, Nat.toDigits 10 sub) := by
    simp only [intrName, peReStart, hr, hf, hs, Nat.toDigits_ne_nil, or_self, if_false]
  rw [intrName, peRe, ← intrName, hst]
  rfl

/-- The interrupt of the status message, if its name has a number. -/
def numbered (n : ℕ) (interrupt : JsonInterrupt) : Option Interrupt :=
  match peRe interrupt.name with
  | some (i, sub) => if Nat.ofDigitChars 10 i 0 = n then some ⟨interrupt.mapping, sub⟩ else none
  | none => none

theorem addInterrupt_apply (m : ℕ → List Interrupt) (irq : JsonInterrupt) (n : ℕ) :
    addInterrupt m irq n = m n ++ (numbered n irq).toList := by
  cases hr : peRe irq.name with
  | none => simp [addInterrupt, numbered, hr]
  | some g =>
    by_cases hi : Nat.ofDigitChars 10 g.1 0 = n
    · subst hi
      simp [addInterrupt, numbered, hr]
    · simp [addInterrupt, numbered, hr, hi, Function.update_of_ne (Ne.symm hi)]

theorem interruptsPes_eq (interrupts : List JsonInterrupt) (n : ℕ) :
    interruptsPes interrupts n = interrupts.filterMap (numbered n) := by
  induction interrupts using List.reverseRecOn with
  | nil => rfl
  | append_singleton l i ih =>
    rw [interruptsPes, foldl_concat, ← interruptsPes, addInterrupt_apply, ih, filterMap_append]
    cases h : numbered n i <;> simp [h]

theorem numbered_intrName (n i sub m : ℕ) :
    numbered n ⟨intrName i sub, m⟩ = if i = n then some ⟨m, Nat.toDigits 10 sub⟩ else none := by
  simp only [numbered, peRe_intrName, Nat.ofDigitChars_ten_toDigits]

theorem numbered_of_peRe_eq_none {name : List Char} (h : peRe name = none) (n m : ℕ) :
    numbered n ⟨name, m⟩ = none := by
  simp only [numbered, h]

/-! ### The lines of the pins -/

theorem archConnectInterrupts_cons (n : ℕ) (ip : Cell) (ips : List Cell) :
    archConnectInterrupts n (ip :: ips) =
      ((List.range ip.interruptPins).map fun sub => (intrName n sub, .design)) ++
        archConnectInterrupts (n + 1) ips := by
  rw [archConnectInterrupts, zipIdx_cons, flatMap_cons]
  rfl

theorem pinsBefore_succ (pes : List Cell) (i : ℕ) :
    pinsBefore pes (i + 1) = pinsBefore pes i + pinsAt pes i := by
  rw [pinsBefore, take_add_one, map_append, sum_append, pinsAt]
  cases pes[i]? <;> simp [pinsBefore]

theorem pinsBefore_mono (pes : List Cell) : Monotone (pinsBefore pes) :=
  monotone_nat_of_le_succ fun i => by rw [pinsBefore_succ]; exact Nat.le_add_right _ _

theorem length_archConnectInterrupts (n : ℕ) (pes : List Cell) :
    (archConnectInterrupts n pes).length = pinsBefore pes pes.length := by
  induction pes generalizing n with
  | nil => rfl
  | cons ip ips ih =>
    rw [archConnectInterrupts_cons, length_append, ih (n + 1)]
    simp [pinsBefore]

theorem pinsBefore_le (pes : List Cell) (i : ℕ) : pinsBefore pes i ≤ pinsBefore pes pes.length := by
  rcases le_total i pes.length with h | h
  · exact pinsBefore_mono pes h
  · rw [pinsBefore, pinsBefore, take_of_length_le h, take_length]

theorem filterMap_numbered_cell (n c : ℕ) {pins : ℕ} {lines : List ℕ} (hl : lines.length = pins) :
    (List.zipWith mk ((List.range pins).map (intrName c)) lines).filterMap
        (numbered n) = if c = n then pinInterrupts lines 0 pins else [] := by
  have hz : List.zipWith mk ((List.range pins).map (intrName c)) lines =
      lines.zipIdx.map fun m => ⟨intrName c m.2, m.1⟩ :=
    ext_getElem (by simp [hl]) (by simp)
  rw [hz, filterMap_map, pinInterrupts, drop_zero, ← hl, take_length]
  split
  · rename_i hc
    rw [← filterMap_eq_map]
    exact filterMap_congr fun m _ => (numbered_intrName n c m.2 m.1).trans (if_pos hc)
  · rename_i hc
    rw [filterMap_eq_nil_iff]
    exact fun m _ => (numbered_intrName n c m.2 m.1).trans (if_neg hc)

theorem filterMap_numbered_cells (n c : ℕ) (pes : List Cell) {lines : List ℕ}
    (hl : lines.length = (archConnectInterrupts c pes).length) :
    (List.zipWith mk ((archConnectInterrupts c pes).map Prod.fst) lines).filterMap
        (numbered n) =
      if c ≤ n then pinInterrupts lines (pinsBefore pes (n - c)) (pinsAt pes (n - c)) else [] := by
  induction pes generalizing c lines with
  | nil => simp [archConnectInterrupts, pinInterrupts, pinsAt]
  | cons ip ips ih =>
    have hn : (archConnectInterrupts c (ip :: ips)).map Prod.fst =
        (List.range ip.interruptPins).map (intrName c) ++
          (archConnectInterrupts (c + 1) ips).map Prod.fst := by
      rw [archConnectInterrupts_cons, map_append, map_map]
      rfl
    rw [archConnectInterrupts_cons, length_append, length_map, length_range] at hl
    have ht : (lines.take ip.interruptPins).length = ip.interruptPins := by
      rw [length_take]
      omega
    have hd : (lines.drop ip.interruptPins).length =
        (archConnectInterrupts (c + 1) ips).length := by
      rw [length_drop]
      omega
    rw [hn, ← take_append_drop ip.interruptPins lines,
      zipWith_append (by rw [length_map, length_range, ht]),
      filterMap_append, filterMap_numbered_cell n c ht, ih (c + 1) hd, take_append_drop]
    rcases lt_trichotomy c n with hc | rfl | hc
    · -- one of the cells behind the first
      obtain ⟨j, rfl⟩ : ∃ j, n = c + 1 + j := ⟨n - (c + 1), by omega⟩
      rw [if_neg (by omega), if_pos (by omega), if_pos (by omega), nil_append,
        Nat.add_sub_cancel_left, show c + 1 + j - c = j + 1 by omega]
      simp [pinInterrupts, pinsBefore, pinsAt, drop_drop]
    · rw [if_pos rfl, if_neg (by omega), if_pos (le_refl c), append_nil, Nat.sub_self]
      simp [pinInterrupts, pinsBefore, pinsAt, take_take]
    · rw [if_neg (by omega), if_neg (by omega), if_neg (by omega), append_nil]

theorem length_intMapping (intc : Intc) (h d : ℕ) (l : List Clk) :
    (intMapping intc h d l).length = l.length := by
  induction l generalizing h d with
  | nil => rfl
  | cons clk l ih => cases intc <;> cases clk <;> simp [intMapping, ih]

theorem intMapping_append (intc : Intc) (h d : ℕ) (l : List Clk) :
    ∃ h' d', ∀ m,
      intMapping intc h d (l ++ m) = intMapping intc h d l ++ intMapping intc h' d' m := by
  induction l generalizing h d with
  | nil => exact ⟨h, d, fun m => rfl⟩
  | cons clk l ih =>
    cases intc <;> cases clk
    all_goals
      simp only [cons_append, intMapping, List.cons.injEq, true_and]
      exact ih _ _

/-- The line of the next interrupt of the clock of the design. -/
def designLine (intc : Intc) (intDesign : ℕ) : ℕ :=
  match intc with
  | .shared => intDesign
  | .hostFirst => 4 + intDesign

theorem intMapping_design (intc : Intc) (h d k : ℕ) :
    intMapping intc h d (List.replicate k .design) = List.range' (designLine intc d) k := by
  induction k generalizing d with
  | zero => rfl
  | succ k ih =>
    rw [replicate_succ, range'_succ]
    cases intc
    · simp only [intMapping, ih, designLine]
    · simp only [intMapping, ih, designLine, add_assoc]

theorem clks_archConnectInterrupts (n : ℕ) (pes : List Cell) :
    (archConnectInterrupts n pes).map Prod.snd =
      List.replicate (archConnectInterrupts n pes).length .design := by
  rw [eq_replicate_iff]
  refine ⟨length_map _, fun clk hc => ?_⟩
  obtain ⟨x, hx, rfl⟩ := mem_map.mp hc
  obtain ⟨ip, -, hx⟩ := mem_flatMap.mp hx
  obtain ⟨sub, -, rfl⟩ := mem_map.mp hx
  rfl

theorem pinInterrupts_append_left (l m : List ℕ) (start pins : ℕ) :
    pinInterrupts (l ++ m) (l.length + start) pins = pinInterrupts m start pins := by
  rw [pinInterrupts, drop_append, drop_of_length_le (Nat.le_add_right _ _),
    nil_append, Nat.add_sub_cancel_left, ← pinInterrupts]

theorem pinInterrupts_append_right {l : List ℕ} (m : List ℕ) {start pins : ℕ}
    (h : start + pins ≤ l.length) :
    pinInterrupts (l ++ m) start pins = pinInterrupts l start pins := by
  rw [pinInterrupts, drop_append_of_le_length (by omega),
    take_append_of_le_length (by rw [length_drop]; omega), ← pinInterrupts]

theorem pinInterrupts_range' {first k start pins : ℕ} (h : start + pins ≤ k) :
    pinInterrupts (List.range' first k) start pins =
      (List.range pins).map fun sub => ⟨first + start + sub, Nat.toDigits 10 sub⟩ := by
  have hl : ((List.range' first k).drop start).take pins = List.range' (first + start) pins := by
    apply ext_getElem
    · simp
      omega
    · intro i hi hi'
      simp [add_assoc]
  rw [pinInterrupts, hl]
  exact ext_getElem (by simp) (by simp)

section Lines

variable (intc : Intc) (before after : List (List Char × Clk)) (pes : List Cell)

theorem exists_intMapping_eq : ∃ first lines lines', lines.length = before.length ∧
    lines'.length = after.length ∧
    intMapping intc 0 0 ((before ++ archConnectInterrupts 0 pes ++ after).map Prod.snd) =
      lines ++ (List.range' first (archConnectInterrupts 0 pes).length ++ lines') := by
  obtain ⟨h, d, hb⟩ := intMapping_append intc 0 0 (before.map Prod.snd)
  obtain ⟨h', d', hp⟩ := intMapping_append intc h d
    (List.replicate (archConnectInterrupts 0 pes).length .design)
  refine ⟨designLine intc d, intMapping intc 0 0 (before.map Prod.snd),
    intMapping intc h' d' (after.map Prod.snd),
    by rw [length_intMapping, length_map], by rw [length_intMapping, length_map], ?_⟩
  rw [append_assoc, map_append, map_append, clks_archConnectInterrupts, hb, hp, intMapping_design]

theorem pinsBefore_add_le (i : ℕ) :
    pinsBefore pes i + pinsAt pes i ≤ (archConnectInterrupts 0 pes).length := by
  rw [length_archConnectInterrupts, ← pinsBefore_succ]
  exact pinsBefore_le pes (i + 1)

theorem exists_cellInterrupts_eq : ∃ first, ∀ i, cellInterrupts intc before after pes i =
    (List.range (pinsAt pes i)).map
      fun sub => ⟨first + pinsBefore pes i + sub, Nat.toDigits 10 sub⟩ := by
  obtain ⟨first, lines, lines', hl, -, heq⟩ := exists_intMapping_eq intc before after pes
  refine ⟨first, fun i => ?_⟩
  have hle := pinsBefore_add_le pes i
  rw [cellInterrupts, heq, ← hl, pinInterrupts_append_left,
    pinInterrupts_append_right lines' (by rw [length_range']; exact hle),
    pinInterrupts_range' hle]

/-- **The interrupts that are found for a number** are those of the cell with this number. -/
theorem interruptsPes_makeInterrupts (hn : ∀ x ∈ before ++ after, peRe x.1 = none) (n : ℕ) :
    interruptsPes (makeInterrupts intc (before ++ archConnectInterrupts 0 pes ++ after)) n =
      cellInterrupts intc before after pes n := by
  obtain ⟨first, lines, lines', hlen, hl', heq⟩ := exists_intMapping_eq intc before after pes
  have hp {l : List (List Char × Clk)} (hl : ∀ x ∈ l, peRe x.1 = none) (ls : List ℕ) :
      (List.zipWith mk (l.map Prod.fst) ls).filterMap (numbered n) = [] := by
    rw [filterMap_eq_nil_iff]
    intro interrupt hm
    rw [← map_uncurry_zip_eq_zipWith] at hm
    obtain ⟨⟨name, line⟩, hz, rfl⟩ := mem_map.mp hm
    obtain ⟨x, hx, rfl⟩ := mem_map.mp (of_mem_zip hz).1
    exact numbered_of_peRe_eq_none (hl x hx) n line
  have hle := pinsBefore_add_le pes n
  rw [interruptsPes_eq, makeInterrupts, heq, cellInterrupts, heq, ← hlen, pinInterrupts_append_left,
    pinInterrupts_append_right lines' (by rw [length_range']; exact hle),
    append_assoc, map_append, map_append, zipWith_append (by rw [length_map, hlen]),
    zipWith_append (by rw [length_map, length_range']),
    filterMap_append, filterMap_append, hp fun x hx => hn x (mem_append_left _ hx),
    hp fun x hx => hn x (mem_append_right _ hx),
    filterMap_numbered_cells n 0 pes length_range', if_pos (Nat.zero_le n), Nat.sub_zero,
    nil_append, append_nil]

theorem cellInterrupts_eq_iff (n i : ℕ) :
    cellInterrupts intc before after pes n = cellInterrupts intc before after pes i ↔
      n = i ∨ pinsAt pes i = 0 ∧ pinsAt pes n = 0 := by
  obtain ⟨first, hc⟩ := exists_cellInterrupts_eq intc before after pes
  rw [hc, hc]
  constructor
  · intro heq
    have hl : pinsAt pes n = pinsAt pes i := by simpa using congrArg List.length heq
    rcases Nat.eq_zero_or_pos (pinsAt pes i) with hz | hp
    · exact .inr ⟨hz, hl.trans hz⟩
    -- the first lines are the same, so the cells are
    have hf := congrArg (fun l => l.head?.map Interrupt.mapping) heq
    obtain ⟨k, hk⟩ : ∃ k, pinsAt pes i = k + 1 := ⟨pinsAt pes i - 1, by omega⟩
    rw [hl, hk] at hf
    simp only [range_succ_eq_map, map_cons, head?_cons, Option.map_some,
      Option.some.injEq, add_zero] at hf
    left
    by_contra hne
    rcases lt_or_gt_of_ne hne with hlt | hlt
    · have hm := pinsBefore_mono pes hlt
      rw [Nat.succ_eq_add_one, pinsBefore_succ] at hm
      omega
    · have hm := pinsBefore_mono pes hlt
      rw [Nat.succ_eq_add_one, pinsBefore_succ] at hm
      omega
  · rintro (rfl | ⟨hi, hn⟩)
    · rfl
    · rw [hi, hn]
      rfl

end Lines

/-! ### The cells of the register interfaces -/

/-- The kinds of the interfaces of a cell in the address map. -/
def interfaceKinds (pe : Cell) : List (ℕ × Kind) :=
  Dict.ofList (pe.slaves.map fun seg => (seg.intf, kindOf seg))

/-- The number of register interfaces of a cell: slave interfaces whose last segment is one of
registers. -/
def numRegisterInterfaces (pe : Cell) : ℕ :=
  (interfaceKinds pe).countP (·.2 = .register)

/-- The cell's number for each register interface, from number `n` on. -/
def registerCells (n : ℕ) (pes : List Cell) : List ℕ :=
  (pes.zipIdx n).flatMap fun pe => List.replicate (numRegisterInterfaces pe.1) pe.2

/-- The entries of the address map that become processing elements. -/
def registerEntries (base : ℕ) (pes : List Cell) : List (Key × Entry) :=
  (getAddressMap base pes).filter isRegister

/-- Interfaces and kinds of the slave segments of the cells from number `n` on. -/
def slaveKinds (n : ℕ) (pes : List Cell) : List (Key × Kind) :=
  (pes.zipIdx n).flatMap fun pe => pe.1.slaves.map fun seg => ((pe.2, seg.intf), kindOf seg)

theorem slaveKinds_cons (n : ℕ) (pe : Cell) (pes : List Cell) :
    slaveKinds n (pe :: pes) =
      (pe.slaves.map fun seg => (seg.intf, kindOf seg)).map (Prod.map (Prod.mk n) id) ++
        slaveKinds (n + 1) pes := by
  rw [slaveKinds, zipIdx_cons, flatMap_cons, map_map]
  rfl

theorem map_fst_slaveKinds (n : ℕ) (pes : List Cell) :
    (slaveKinds n pes).map Prod.fst = slaveKeys n pes := by
  rw [slaveKinds, slaveKeys, map_flatMap]
  simp only [map_map]
  rfl

theorem map_kind_getAddressMap (base : ℕ) (pes : List Cell) :
    (getAddressMap base pes).map (Prod.map id Entry.kind) = Dict.ofList (slaveKinds 0 pes) := by
  have hk : ((place base (allSlaves pes)).map Window.entry).map (Prod.map id Entry.kind) =
      slaveKinds 0 pes := by
    calc ((place base (allSlaves pes)).map Window.entry).map (Prod.map id Entry.kind)
        = ((place base (allSlaves pes)).map fun w => (w.pe, w.seg)).map
            fun p => ((p.1, p.2.intf), kindOf p.2) := by rw [map_map, map_map]; rfl
      _ = slaveKinds 0 pes := by
          rw [place_map_key, allSlaves, slaveKinds, map_flatMap]
          simp only [map_map]
          rfl
  rw [getAddressMap_eq, ← Dict.ofList_map Function.injective_id, hk]

theorem ofList_slaveKinds (n : ℕ) (pes : List Cell) :
    Dict.ofList (slaveKinds n pes) = (pes.zipIdx n).flatMap fun pe =>
      (interfaceKinds pe.1).map (Prod.map (Prod.mk pe.2) id) := by
  induction pes generalizing n with
  | nil => rfl
  | cons pe pes ih =>
    have hd : ∀ a ∈ (pe.slaves.map fun seg => (seg.intf, kindOf seg)).map
        (Prod.map (Prod.mk n) id), ∀ b ∈ slaveKinds (n + 1) pes, a.1 ≠ b.1 := by
      intro a ha b hb hab
      obtain ⟨e, -, rfl⟩ := mem_map.mp ha
      have hle := le_of_mem_slaveKeys (map_fst_slaveKinds (n + 1) pes ▸ mem_map_of_mem hb)
      rw [← hab] at hle
      exact absurd hle (Nat.not_succ_le_self n)
    rw [slaveKinds_cons, Dict.ofList_append hd, ih (n + 1),
      Dict.ofList_map (Prod.mk_right_injective n), ← interfaceKinds, zipIdx_cons, flatMap_cons]

theorem filter_interfaceKinds (n : ℕ) (pe : Cell) :
    ((((interfaceKinds pe).map (Prod.map (Prod.mk n) id)).filter (·.2 = .register)).map
      fun e => e.1.1) = List.replicate (numRegisterInterfaces pe) n := by
  rw [eq_replicate_iff, filter_map, map_map]
  refine ⟨?_, fun i hi => ?_⟩
  · rw [length_map, numRegisterInterfaces, countP_eq_length_filter]
    rfl
  · obtain ⟨e, -, rfl⟩ := mem_map.mp hi
    rfl

/-- **The cells of the register interfaces** in the order of the address map. -/
theorem map_registerEntries (base : ℕ) (pes : List Cell) :
    (registerEntries base pes).map (fun e => e.1.1) = registerCells 0 pes := by
  have hk : (registerEntries base pes).map (fun e => e.1.1) =
      ((Dict.ofList (slaveKinds 0 pes)).filter (·.2 = .register)).map fun e => e.1.1 := by
    rw [← map_kind_getAddressMap, filter_map, map_map]
    rfl
  rw [hk, ofList_slaveKinds, filter_flatMap, map_flatMap]
  simp only [filter_interfaceKinds, registerCells]

/-! ### Attribution -/

theorem interruptIds_of_head? {id n : ℕ} {pes : List StatusPe} {pe : StatusPe} {first : Interrupt}
    (hp : pes[n]? = some pe) (hf : pe.interrupts.head? = some first) :
    (interruptIds id pes)[n]? = some first.mapping := by
  induction pes generalizing id n with
  | nil => simp at hp
  | cons pe' pes ih =>
    cases n with
    | zero =>
      obtain rfl : pe' = pe := by simpa using hp
      obtain ⟨l, hl⟩ := head?_eq_some_iff.mp hf
      simp [interruptIds, hl]
    | succ n =>
      rw [interruptIds, getElem?_cons_succ]
      exact ih (by simpa using hp)

/-- Every processing element has the window of a register interface and the interrupts of the cell
this interface belongs to, and the runtime waits for the first of them. -/
structure Attributed (intc : Intc) (before after : List (List Char × Clk)) (base : ℕ)
    (pes : List Cell) (isPcie : Bool) (status : Status) : Prop where
  length_eq : status.pes.length = (registerEntries base pes).length
  window_eq : ∀ (n : ℕ) (pe : StatusPe) (e : Key × Entry), status.pes[n]? = some pe →
    (registerEntries base pes)[n]? = some e → (pe.offset, pe.size) = window base e
  interrupts_eq : ∀ (n : ℕ) (pe : StatusPe) (e : Key × Entry), status.pes[n]? = some pe →
    (registerEntries base pes)[n]? = some e →
    pe.interrupts = cellInterrupts intc before after pes e.1.1
  waits : ∀ (n : ℕ) (e : Key × Entry) (first : Interrupt),
    (registerEntries base pes)[n]? = some e →
    (cellInterrupts intc before after pes e.1.1).head? = some first →
    (interruptIds (if isPcie then 4 else 0) status.pes)[n]? = some first.mapping

/-- The number of a register interface, counted over all cells, is that of its cell, except
where neither of the two numbers belongs to a cell with interrupts. -/
def NumberedByCell (pes : List Cell) : Prop :=
  ∀ n i, (registerCells 0 pes)[n]? = some i → n = i ∨ pinsAt pes i = 0 ∧ pinsAt pes n = 0

section Attribution

variable {intc : Intc} {before after : List (List Char × Clk)} {base : ℕ} {pes : List Cell}
  {status : Status}

theorem getElem?_pes (hn : ∀ x ∈ before ++ after, peRe x.1 = none)
    (h : statusMessage intc before after base pes = .ok status) (n : ℕ) :
    status.pes[n]?.map (fun pe => ((pe.offset, pe.size), pe.interrupts)) =
      (registerEntries base pes)[n]?.map
        fun e => (window base e, cellInterrupts intc before after pes n) := by
  have hp := (composed_of_statusMessage h).2.pes
  rw [← getElem?_map, hp, getElem?_map, getElem?_zipIdx, Option.map_map, registerEntries]
  refine congrFun (congrArg Option.map (funext fun e => ?_)) _
  rw [← interruptsPes_makeInterrupts intc before after pes hn n]
  simp

/-- **Attribution of interrupts**: every processing element has those of its own cell exactly if the
register interfaces are numbered like their cells. -/
theorem attributed_iff (isPcie : Bool) (hnames : ∀ x ∈ before ++ after, peRe x.1 = none)
    (h : statusMessage intc before after base pes = .ok status) :
    Attributed intc before after base pes isPcie status ↔ NumberedByCell pes := by
  constructor
  · intro hattr n i hi
    rw [← map_registerEntries base pes, getElem?_map] at hi
    obtain ⟨e, he, rfl⟩ := Option.map_eq_some_iff.mp hi
    have hget := getElem?_pes hnames h n
    rw [he, Option.map_some] at hget
    obtain ⟨pe, hpe, heq⟩ := Option.map_eq_some_iff.mp hget
    have hints : pe.interrupts = cellInterrupts intc before after pes n := (Prod.ext_iff.mp heq).2
    rw [← cellInterrupts_eq_iff intc before after, ← hints]
    exact hattr.interrupts_eq n pe e hpe he
  · intro hnum
    have hlen : status.pes.length = (registerEntries base pes).length := by
      have hpes := congrArg List.length (composed_of_statusMessage h).2.pes
      simpa [registerEntries] using hpes
    have hpe {n : ℕ} {e : Key × Entry} (he : (registerEntries base pes)[n]? = some e) :
        ∃ pe : StatusPe, status.pes[n]? = some pe ∧ (pe.offset, pe.size) = window base e ∧
          pe.interrupts = cellInterrupts intc before after pes e.1.1 := by
      have hget := getElem?_pes hnames h n
      rw [he, Option.map_some] at hget
      obtain ⟨pe, hpe, heq⟩ := Option.map_eq_some_iff.mp hget
      obtain ⟨hwin, hints⟩ := Prod.ext_iff.mp heq
      refine ⟨pe, hpe, hwin, hints.trans ?_⟩
      rw [cellInterrupts_eq_iff]
      apply hnum
      rw [← map_registerEntries base pes, getElem?_map, he]
      rfl
    refine ⟨hlen, fun n pe e hn he => ?_, fun n pe e hn he => ?_, fun n e first he hfirst => ?_⟩
    · obtain ⟨pe', hpe', hwin, -⟩ := hpe he
      obtain rfl : pe = pe' := Option.mem_unique hn hpe'
      exact hwin
    · obtain ⟨pe', hpe', -, hints⟩ := hpe he
      obtain rfl : pe = pe' := Option.mem_unique hn hpe'
      exact hints
    · obtain ⟨pe, hpe, -, hints⟩ := hpe he
      exact interruptIds_of_head? hpe (hints ▸ hfirst)

end Attribution

theorem numberedByCell_twoCells : NumberedByCell twoCells := by
  have hc : registerCells 0 twoCells = [0, 1] := by decide
  intro n i h
  rw [hc] at h
  match n with
  | 0 => exact .inl (Option.some.inj h)
  | 1 => exact .inl (Option.some.inj h)
  | n + 2 => simp at h

/-- An interrupt of the platform. -/
def dmaRead : List Char × Clk :=
  ("PLATFORM_COMPONENT_DMA0_READ".toList, .host)

theorem attributed_iff_two_cells : ∃ status,
    statusMessage .hostFirst [dmaRead] [] 0x2000000 twoCells = .ok status ∧
    Attributed .hostFirst [dmaRead] [] 0x2000000 twoCells true status :=
  ⟨_, rfl, (attributed_iff true (by decide) rfl).mpr numberedByCell_twoCells⟩

/-- A processing element with two register interfaces, and one with one. -/
def twoRegisterCells : List Cell :=
  [registerCell 2 1 10 "a", registerCell 1 1 11 "b"]

/-- The second register interface of the first cell gets the interrupt of the second cell. -/
theorem second_interface_has_next_interrupt : ∃ status pe,
    statusMessage .shared [] [] 0 twoRegisterCells = .ok status ∧
    (registerEntries 0 twoRegisterCells)[1]?.map (fun e => e.1) = some (0, 1) ∧
    status.pes[1]? = some pe ∧ pe.offset = 0x1000 ∧
    pe.interrupts = cellInterrupts .shared [] [] twoRegisterCells 1 ∧
    ¬ Attributed .shared [] [] 0 twoRegisterCells false status := by
  refine ⟨_, _, rfl, by decide, rfl, by decide +kernel, by decide +kernel, fun hattr => ?_⟩
  exact absurd (hattr.interrupts_eq 1 _ _ rfl rfl) (by decide +kernel)

/-! ### The wires of the interrupts -/

/-- An input of the block for the clock of the host, or of a block with 32 inputs. -/
inductive ConcatInput where
  | host (idx : ℕ)
  | design (block idx : ℕ)

/-- The bit at which an input arrives: the blocks are merged in their order, and on PCIe the bits of
the host come first. -/
def ConcatInput.position (intc : Intc) : ConcatInput → ℕ
  | .host h => h
  | .design c b => designLine intc (32 * c + b)

/-- The counters of the loop in `create_subsystem_intc`, with the number of the last block. -/
structure IntCounters where
  intHost : ℕ
  lastBlock : ℕ
  intDesign : ℕ
  intDesignTotal : ℕ

/-- The next input, for which a new block may be created. -/
def IntCounters.nextInput (s : IntCounters) : ℕ × ℕ :=
  if 32 ≤ s.intDesign then (s.lastBlock + 1, 0) else (s.lastBlock, s.intDesign)

/-- The number and the wire of each interrupt. The block of the host has four inputs, and connecting
another one aborts the script. -/
def connectInterrupts (intc : Intc) (s : IntCounters) : List Clk → Option (List (ℕ × ConcatInput))
  | [] => some []
  | clk :: l =>
    if intc = .hostFirst ∧ clk = .host then
      if s.intHost < 4 then
        (connectInterrupts intc { s with intHost := s.intHost + 1 } l).map
          ((s.intHost, .host s.intHost) :: ·)
      else none
    else
      let i := s.nextInput
      (connectInterrupts intc ⟨s.intHost, i.1, i.2 + 1, s.intDesignTotal + 1⟩ l).map
        ((designLine intc s.intDesignTotal, .design i.1 i.2) :: ·)

def createSubsystemIntc (intc : Intc) : List Clk → Option (List (ℕ × ConcatInput)) :=
  connectInterrupts intc ⟨0, 0, 0, 0⟩

/-- The total counts the inputs of all blocks. -/
def IntCounters.Total (s : IntCounters) : Prop :=
  s.intDesignTotal = 32 * s.lastBlock + s.intDesign ∧ s.intDesign ≤ 32

theorem IntCounters.Total.next {s : IntCounters} (hs : s.Total) :
    s.intDesignTotal = 32 * s.nextInput.1 + s.nextInput.2 ∧ s.nextInput.2 < 32 := by
  obtain ⟨ht, hd⟩ := hs
  rw [nextInput]
  split <;> dsimp only <;> omega

theorem connectInterrupts_spec {intc : Intc} {s : IntCounters} (hs : s.Total) {l : List Clk}
    {ws : List (ℕ × ConcatInput)} (h : connectInterrupts intc s l = some ws) :
    ws.map Prod.fst = intMapping intc s.intHost s.intDesignTotal l ∧ (ws.map Prod.fst).Nodup ∧
      ∀ w ∈ ws, w.1 = w.2.position intc ∧
        (intc = .hostFirst ∧ s.intHost ≤ w.1 ∧ w.1 < 4 ∨
          designLine intc s.intDesignTotal ≤ w.1) := by
  induction l generalizing s ws with
  | nil =>
    obtain rfl := Option.some.inj h
    simp [intMapping]
  | cons clk l ih =>
    rw [connectInterrupts] at h
    split at h
    · rename_i hc
      obtain ⟨rfl, rfl⟩ := hc
      split at h
      · rename_i hlt
        obtain ⟨ws, hws, rfl⟩ := Option.map_eq_some_iff.mp h
        obtain ⟨hm, hn, hw⟩ := ih (s := { s with intHost := s.intHost + 1 }) hs hws
        refine ⟨by simp [intMapping, hm], nodup_cons.mpr ⟨fun hmem => ?_, hn⟩,
          forall_mem_cons.mpr ⟨⟨rfl, .inl ⟨rfl, le_rfl, hlt⟩⟩, fun w hmem => ?_⟩⟩
        · obtain ⟨w, hmem, heq⟩ := mem_map.mp hmem
          have hbound := (hw w hmem).2
          simp only [designLine] at hbound
          omega
        · have hbound := (hw w hmem).2
          exact ⟨(hw w hmem).1, hbound.imp (fun hb => ⟨rfl, by dsimp only at hb; omega, hb.2.2⟩) id⟩
      · cases h
    · rename_i hc
      obtain ⟨hnext, hlt⟩ := hs.next
      obtain ⟨ws, hws, rfl⟩ := Option.map_eq_some_iff.mp h
      obtain ⟨hm, hn, hw⟩ := ih ⟨by dsimp only; omega, Nat.succ_le_of_lt hlt⟩ hws
      have hline : designLine intc s.intDesignTotal < designLine intc (s.intDesignTotal + 1) := by
        cases intc <;> simp [designLine]
      refine ⟨?_, nodup_cons.mpr ⟨fun hmem => ?_, hn⟩,
        forall_mem_cons.mpr ⟨⟨by rw [hnext]; rfl, .inr le_rfl⟩, fun w hmem => ?_⟩⟩
      · cases intc <;> cases clk <;> simp_all [intMapping, designLine]
      · obtain ⟨w, hmem, heq⟩ := mem_map.mp hmem
        obtain ⟨rfl, -, hw4⟩ | hb := (hw w hmem).2
        · simp only [designLine] at heq
          omega
        · exact absurd (hb.trans_eq heq) hline.not_ge
      · exact ⟨(hw w hmem).1, (hw w hmem).2.imp id hline.le.trans⟩

/-- **Published interrupt numbers are the wired positions.** For every list of interrupts that is
connected, the number next to a name is the bit of its wire, and no number is published twice. -/
theorem published_at_wires (intc : Intc) (interrupts : List (List Char × Clk))
    {ws : List (ℕ × ConcatInput)}
    (h : createSubsystemIntc intc (interrupts.map Prod.snd) = some ws) :
    makeInterrupts intc interrupts =
        zipWith mk (interrupts.map Prod.fst) (ws.map (·.2.position intc)) ∧
      ws.length = interrupts.length ∧
      ((makeInterrupts intc interrupts).map mapping).Nodup := by
  obtain ⟨hm, hn, hw⟩ := connectInterrupts_spec ⟨rfl, by decide⟩ h
  have hlen : ws.length = interrupts.length := by
    simpa [length_intMapping] using congrArg List.length hm
  refine ⟨?_, hlen, ?_⟩
  · rw [makeInterrupts, ← map_congr_left fun w hmem => (hw w hmem).1, hm]
  · have hsnd := @map_snd_zip _ _ (interrupts.map Prod.fst) (ws.map Prod.fst) (by simp [hlen])
    rw [map_zip_eq_zipWith] at hsnd
    rw [makeInterrupts, ← hm, map_zipWith]
    exact hsnd.symm ▸ hn

/-- The last of 33 interrupts of the design is at the second block. -/
theorem published_at_wires_host_design :
    let interrupts := (['D'], Clk.host) :: List.replicate 33 (['P'], .design)
    let wires := (0, ConcatInput.host 0) ::
      (List.range 33).map fun i => (4 + i, .design (i / 32) (i % 32))
    makeInterrupts .hostFirst interrupts =
        zipWith mk (interrupts.map Prod.fst) (wires.map (·.2.position .hostFirst)) ∧
      wires.length = interrupts.length ∧
      ((makeInterrupts .hostFirst interrupts).map mapping).Nodup :=
  published_at_wires .hostFirst ((['D'], .host) :: List.replicate 33 (['P'], .design)) rfl

end Tapasco.StatusMessage
