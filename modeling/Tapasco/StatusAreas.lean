import Mathlib.Data.List.Perm.Subperm
import Tapasco.StatusInterrupts

/-!
# Local Memories and Debug Regions in the Status Message

The slots of the status message are numbered in the order of the address map. `json_to_status` adds
a memory to the processing element that was added last, and looks up the debug region of a
processing element by its number. The numbers of debug regions come from `construct_address_map`,
which takes the last three digits in the path of a segment: the number of the cell among those of
its kind.
-/

open List

namespace Tapasco.StatusMessage

open AddressMap

/-- A debug region of the cell at place `cell`. -/
structure DebugRegion where
  cell : ℕ
  offset : ℕ
  size : ℕ
  deriving DecidableEq

/-- The number of a debug region, given the numbers of the cells among those of their kind. -/
def peId (inst : ℕ → ℕ) (d : DebugRegion) : ℕ :=
  inst d.cell % 1000

/-- The map `debugs`: of regions with the same number, the last one stays. -/
def debugOf (inst : ℕ → ℕ) (debugs : List DebugRegion) (slotId : ℕ) : Option DebugRegion :=
  (debugs.filter (peId inst · = slotId)).getLast?

/-- A processing element of the status message, with the entries of the address map for its window
and its memory. -/
structure AreaPe where
  entry : Key × Entry
  localMemory : Option (Key × Entry)
  debug : Option DebugRegion

def addArea (debug : ℕ → Option DebugRegion) (pes : List AreaPe) (slot : (Key × Entry) × ℕ) :
    Except JsonError (List AreaPe) :=
  match slot.1.2.kind with
  | .memory =>
    match pes.getLast? with
    | none => .error .memoryWithoutPE
    | some last => .ok (pes.dropLast ++ [{ last with localMemory := some slot.1 }])
  | .register => .ok (pes ++ [⟨slot.1, none, debug slot.2⟩])

def areas (debug : ℕ → Option DebugRegion) (es : List (Key × Entry)) :
    Except JsonError (List AreaPe) :=
  es.zipIdx.foldlM (addArea debug) []

/-- Every memory and every debug region is attached, and none to another cell. -/
structure AreasAttributed (debugs : List DebugRegion) (es : List (Key × Entry))
    (pes : List AreaPe) : Prop where
  memories : ∀ e ∈ es, e.2.kind = .memory → ∃ a ∈ pes, a.localMemory = some e
  ownMemory : ∀ a ∈ pes, ∀ e ∈ a.localMemory, e.1.1 = a.entry.1.1
  debugs : ∀ d ∈ debugs, ∃ a ∈ pes, a.debug = some d
  ownDebug : ∀ a ∈ pes, ∀ d ∈ a.debug, d.cell = a.entry.1.1

/-- The cells and kinds of the slots: the interfaces of one cell after those of the other. -/
def slotKinds (pes : List Cell) : List (ℕ × Kind) :=
  pes.zipIdx.flatMap fun pe => (interfaceKinds pe.1).map fun e => (pe.2, e.2)

/-- Each memory comes directly after registers of its cell. -/
def Paired (slots : List (ℕ × Kind)) : Prop :=
  ∀ pre c, pre ++ [(c, .memory)] <+: slots → pre.getLast? = some (c, .register)

/-- The number of each debug region is that of registers of its cell, and no other region has it. -/
def Numbered (inst : ℕ → ℕ) (debugs : List DebugRegion) (slots : List (ℕ × Kind)) : Prop :=
  ∀ d ∈ debugs, slots[peId inst d]? = some (d.cell, .register) ∧
    ∀ d' ∈ debugs, peId inst d' = peId inst d → d' = d

/-! ### The loop -/

/-- The cell and the kind of an entry. -/
def slotKind (e : Key × Entry) : ℕ × Kind :=
  (e.1.1, e.2.kind)

section

variable {debug : ℕ → Option DebugRegion} {es : List (Key × Entry)} {pes pes' : List AreaPe}

theorem areas_concat (e : Key × Entry) :
    areas debug (es ++ [e]) = areas debug es >>= fun pes => addArea debug pes (e, es.length) := by
  rw [areas, zipIdx_append, foldlM_append]
  simp [areas]

theorem addArea_cases {e : Key × Entry} {k : ℕ} (h : addArea debug pes (e, k) = .ok pes') :
    (e.2.kind = .register ∧ pes' = pes ++ [⟨e, none, debug k⟩]) ∨
      (e.2.kind = .memory ∧ ∃ init last, pes = init ++ [last] ∧
        pes' = init ++ [{ last with localMemory := some e }]) := by
  cases hk : e.2.kind with
  | register =>
    simp only [addArea, hk, Except.ok.injEq] at h
    exact .inl ⟨rfl, h.symm⟩
  | memory =>
    simp only [addArea, hk] at h
    cases hl : pes.getLast? with
    | none => simp [hl] at h
    | some last =>
      simp only [hl, Except.ok.injEq] at h
      obtain ⟨init, rfl⟩ := getLast?_eq_some_iff.mp hl
      exact .inr ⟨rfl, init, last, rfl, by simpa using h.symm⟩

/-- The state of the loop after some entries. -/
structure Placed (debug : ℕ → Option DebugRegion) (es : List (Key × Entry)) (pes : List AreaPe) :
    Prop where
  memories : pes.filterMap AreaPe.localMemory <+ es.filter (·.2.kind = .memory)
  registers : pes.map (fun a => (a.entry, a.debug)) =
    (es.zipIdx.filter (·.1.2.kind = .register)).map fun e => (e.1, debug e.2)
  last : es.getLast? = pes.getLast?.map fun a => a.localMemory.getD a.entry

theorem placed_step {e : Key × Entry} (h : Placed debug es pes)
    (hs : addArea debug pes (e, es.length) = .ok pes') : Placed debug (es ++ [e]) pes' := by
  obtain ⟨hm, hr, -⟩ := h
  rcases addArea_cases hs with ⟨hk, rfl⟩ | ⟨hk, init, last, rfl, rfl⟩
  · refine ⟨?_, ?_, by simp⟩
    · simpa [hk] using hm
    · rw [map_append, hr, zipIdx_append]
      simp [hk]
  · refine ⟨?_, ?_, by simp⟩
    · have hi : init.filterMap AreaPe.localMemory <+ es.filter (·.2.kind = .memory) :=
        (filterMap_append ▸ sublist_append_left ..).trans hm
      simpa [hk] using hi
    · simpa [hk, zipIdx_append] using hr

theorem placed_areas (h : areas debug es = .ok pes) : Placed debug es pes := by
  induction es using List.reverseRecOn generalizing pes with
  | nil =>
    obtain rfl : [] = pes := Except.ok.inj h
    exact ⟨.slnil, rfl, rfl⟩
  | append_singleton es e ih =>
    rw [areas_concat] at h
    cases he : areas debug es with
    | error err => simp [he, bind, Except.bind] at h
    | ok pes₀ => exact placed_step (ih he) (by simpa [he, bind, Except.bind] using h)

theorem areas_error_iff :
    (∃ err, areas debug es = .error err) ↔ ∃ e ∈ es.head?, e.2.kind = .memory := by
  induction es using List.reverseRecOn with
  | nil => simp [areas, pure, Except.pure]
  | append_singleton es e ih =>
    rw [areas_concat]
    cases hes : areas debug es with
    | error err =>
      obtain ⟨e', he', hk⟩ := ih.mp ⟨err, hes⟩
      exact iff_of_true ⟨err, rfl⟩ ⟨e', by simp [Option.mem_def.mp he'], hk⟩
    | ok pes =>
      have hl := (placed_areas hes).last
      cases es with
      | nil =>
        obtain rfl : [] = pes := Except.ok.inj hes
        cases hk : e.2.kind <;> simp [addArea, hk, bind, Except.bind]
      | cons e' es =>
        have hh : ¬ ∃ e ∈ (e' :: es).head?, e.2.kind = .memory := fun h => by
          obtain ⟨err, he⟩ := ih.mpr h
          rw [hes] at he
          cases he
        refine iff_of_false (fun ⟨err, he⟩ => ?_) (by simpa using hh)
        obtain ⟨a, ha⟩ : ∃ a, pes.getLast? = some a := by
          cases h : pes.getLast? <;> simp [h] at hl ⊢
        cases hk : e.2.kind <;> simp [addArea, hk, ha, bind, Except.bind] at he

/-! ### Memories -/

theorem paired_concat {slots : List (ℕ × Kind)} {x : ℕ × Kind} :
    Paired (slots ++ [x]) ↔
      Paired slots ∧ (x.2 = .memory → slots.getLast? = some (x.1, .register)) := by
  constructor
  · refine fun h => ⟨fun pre c hp => h pre c (hp.trans (prefix_append _ _)), fun hx => ?_⟩
    exact h slots x.1 (hx ▸ prefix_rfl)
  · rintro ⟨hs, hx⟩ pre c hp
    rcases prefix_concat_iff.mp hp with heq | hp
    · obtain ⟨rfl, hl⟩ := append_inj' heq rfl
      obtain rfl := (cons.inj hl).1
      exact hx rfl
    · exact hs pre c hp

/-- **Memories are attached to their own cells** exactly if they follow registers of these cells. -/
theorem memories_iff_paired (h : areas debug es = .ok pes) :
    (pes.filterMap AreaPe.localMemory = es.filter (·.2.kind = .memory) ∧
      ∀ a ∈ pes, ∀ e ∈ a.localMemory, e.1.1 = a.entry.1.1) ↔ Paired (es.map slotKind) := by
  induction es using List.reverseRecOn generalizing pes with
  | nil =>
    obtain rfl : [] = pes := Except.ok.inj h
    simp [Paired]
  | append_singleton es e ih =>
    rw [areas_concat] at h
    cases he : areas debug es with
    | error err => simp [he, bind, Except.bind] at h
    | ok pes₀ =>
      obtain ⟨hme, hr, hla⟩ := placed_areas he
      rw [map_append, map_singleton, paired_concat, ← ih he]
      have hs : addArea debug pes₀ (e, es.length) = .ok pes := by
        simpa [he, bind, Except.bind] using h
      rcases addArea_cases hs with ⟨hk, rfl⟩ | ⟨hk, init, last, rfl, rfl⟩
      · simp [hk, slotKind, or_imp, forall_and]
      have hen : last.entry.2.kind = .register := by
        have hin :
            (last.entry, last.debug) ∈ (init ++ [last]).map fun a => (a.entry, a.debug) := by
          simp
        rw [hr] at hin
        obtain ⟨x, hx, heq⟩ := mem_map.mp hin
        exact (Prod.mk.inj heq).1 ▸ of_decide_eq_true (mem_filter.mp hx).2
      rw [getLast?_concat, Option.map_some] at hla
      cases hm : last.localMemory with
      | none =>
        rw [hm, Option.getD_none] at hla
        simp [hk, hla, hm, hen, slotKind, or_imp, forall_and, and_assoc, eq_comm, -Prod.forall]
      | some m =>
        -- the memory before is lost
        rw [hm, Option.getD_some] at hla
        simp only [filterMap_append, filterMap_cons, hm, filterMap_nil] at hme
        have hk' : m.2.kind = .memory := by
          simpa using (mem_filter.mp (hme.subset (mem_append_right _ (mem_singleton_self m)))).2
        refine iff_of_false (fun h => ?_) fun h => ?_
        · have hi : init.filterMap AreaPe.localMemory = es.filter (·.2.kind = .memory) := by
            simpa [hk] using h.1
          have hl := hme.length_le
          rw [hi, length_append, length_singleton] at hl
          omega
        · have hr' := h.2 hk
          rw [getLast?_map, hla, Option.map_some, slotKind, hk'] at hr'
          simp at hr'

/-! ### Debug regions -/

theorem Placed.mem_iff (h : Placed debug es pes) {e : Key × Entry} {d : Option DebugRegion} :
    (∃ a ∈ pes, a.entry = e ∧ a.debug = d) ↔
      ∃ k, es[k]? = some e ∧ e.2.kind = .register ∧ debug k = d := by
  have hm : (∃ a ∈ pes, a.entry = e ∧ a.debug = d) ↔
      (e, d) ∈ pes.map fun a => (a.entry, a.debug) := by simp
  rw [hm, h.registers, mem_map]
  constructor
  · rintro ⟨x, hx, heq⟩
    obtain ⟨hx', hki⟩ := mem_filter.mp hx
    obtain ⟨rfl, rfl⟩ := Prod.mk.inj heq
    exact ⟨x.2, mem_zipIdx_iff_getElem?.mp hx', of_decide_eq_true hki, rfl⟩
  · rintro ⟨k, hk, hki, rfl⟩
    exact ⟨(e, k), mem_filter.mpr ⟨mk_mem_zipIdx_iff_getElem?.mpr hk, decide_eq_true hki⟩, rfl⟩

theorem debugOf_eq_some {inst : ℕ → ℕ} {debugs : List DebugRegion} {k : ℕ} {d : DebugRegion}
    (h : debugOf inst debugs k = some d) : d ∈ debugs ∧ peId inst d = k := by
  simpa using mem_filter.mp (mem_of_getLast? h)

/-- **Debug regions are attached to their own cells** exactly if their numbers are those of
registers of these cells. -/
theorem debugs_iff_numbered {inst : ℕ → ℕ} {debugs : List DebugRegion}
    (h : Placed (debugOf inst debugs) es pes) :
    ((∀ d ∈ debugs, ∃ a ∈ pes, a.debug = some d) ∧
      ∀ a ∈ pes, ∀ d ∈ a.debug, d.cell = a.entry.1.1) ↔ Numbered inst debugs (es.map slotKind) := by
  constructor
  · rintro ⟨hal, ho⟩ d hd
    have hs : ∀ d ∈ debugs, debugOf inst debugs (peId inst d) = some d ∧
        (es.map slotKind)[peId inst d]? = some (d.cell, .register) := fun d hd => by
      obtain ⟨a, ha, hde⟩ := hal d hd
      obtain ⟨k, hk, hki, hk'⟩ := h.mem_iff.mp ⟨a, ha, rfl, hde⟩
      obtain rfl := (debugOf_eq_some hk').2
      refine ⟨hk', ?_⟩
      rw [getElem?_map, hk, Option.map_some, slotKind, hki, ho a ha d hde]
    refine ⟨(hs d hd).2, fun d' hd' heq => ?_⟩
    have hd'' := (hs d' hd').1
    rw [heq, (hs d hd).1] at hd''
    exact (Option.some.inj hd'').symm
  · intro hn
    refine ⟨fun d hd => ?_, fun a ha d hde => ?_⟩
    · obtain ⟨hs, hu⟩ := hn d hd
      have hde : debugOf inst debugs (peId inst d) = some d := by
        have hm : d ∈ debugs.filter (peId inst · = peId inst d) := by simp [hd]
        have hl := getLast?_eq_some_getLast (ne_nil_of_mem hm)
        obtain ⟨hi, heq⟩ := debugOf_eq_some hl
        exact hl.trans (congrArg some (hu _ hi heq))
      rw [getElem?_map] at hs
      obtain ⟨e, he, hki⟩ := Option.map_eq_some_iff.mp hs
      obtain ⟨a, ha, -, hd'⟩ := h.mem_iff.mpr ⟨_, he, (Prod.mk.inj hki).2, hde⟩
      exact ⟨a, ha, hd'⟩
    · obtain ⟨k, hk, -, hk'⟩ := h.mem_iff.mp ⟨a, ha, rfl, hde⟩
      obtain ⟨hi, rfl⟩ := debugOf_eq_some hk'
      have hs := (hn d hi).1
      rw [getElem?_map, hk, Option.map_some] at hs
      exact (Prod.mk.inj (Option.some.inj hs)).1.symm

end

/-! ### Attribution -/

theorem map_slotKind_getAddressMap (base : ℕ) (pes : List Cell) :
    (getAddressMap base pes).map slotKind = slotKinds pes := by
  calc (getAddressMap base pes).map slotKind
      = ((getAddressMap base pes).map (Prod.map id Entry.kind)).map fun e => (e.1.1, e.2) := by
        rw [map_map]
        rfl
    _ = slotKinds pes := by
        rw [map_kind_getAddressMap, ofList_slaveKinds, map_flatMap, slotKinds]
        simp only [map_map]
        rfl

/-- The windows and memories of **the status message** are these. -/
theorem areas_of_statusMessage {intc : Intc} {before after : List (List Char × Clk)} {base : ℕ}
    {pes : List Cell} {st : Status} (debug : ℕ → Option DebugRegion)
    (h : statusMessage intc before after base pes = .ok st) :
    ∃ as, areas debug (getAddressMap base pes) = .ok as ∧
      st.pes.map (fun pe => ((pe.offset, pe.size), pe.localMemory)) = as.map fun a =>
        (window base a.entry, a.localMemory.map fun e => ⟨(window base e).1, e.2.range⟩) := by
  obtain ⟨n, hs, -⟩ := foldlM_of_statusMessage h
  have hra : ∀ e ∈ getAddressMap base pes, e.2.range < 2 ^ 64 := fun e he =>
    range_lt_of_mem_getAddressMap he
  generalize st.pes = spes at hs
  rw [makeSlots] at hs
  generalize getAddressMap base pes = es at hs hra
  induction es using List.reverseRecOn generalizing spes n with
  | nil =>
    obtain rfl : [] = spes := congrArg Prod.fst (Except.ok.inj hs)
    exact ⟨[], rfl, rfl⟩
  | append_singleton es e ih =>
    obtain ⟨s, hes, hst⟩ := foldlM_makeSlot_concat hs
    obtain ⟨as, has, heq⟩ := ih s.2 s.1 hes fun e' he' => hra e' (mem_append_left _ he')
    rw [areas_concat, has]
    rcases addSlot_makeSlot e (hra e (by simp)) _ hst with ⟨hr, new, hs', hw, hm, -⟩ |
      ⟨hr, spes', last, hla, hs'⟩
    · obtain rfl := congrArg Prod.fst hs'
      have hk : e.2.kind = .register := of_decide_eq_true hr
      refine ⟨as ++ [⟨e, none, debug es.length⟩], ?_, ?_⟩
      · simp [addArea, hk, bind, Except.bind]
      · rw [map_append, map_append, heq]
        simp [hw, hm]
    · obtain rfl := congrArg Prod.fst hs'
      have hk : e.2.kind = .memory := by
        cases hk : e.2.kind <;> simp_all [isRegister]
      rw [hla, map_append, map_singleton] at heq
      obtain ⟨init, l, rfl, hi, hl⟩ := map_eq_append_iff.mp heq.symm
      obtain ⟨a, rfl, ha⟩ := map_eq_singleton_iff.mp hl
      refine ⟨init ++ [{ a with localMemory := some e }], ?_, ?_⟩
      · simp [addArea, hk, bind, Except.bind]
      · rw [map_append, map_append, hi]
        simp [(Prod.mk.inj ha).1]

theorem areas_of_statusMessage_two_cells :
    ∃ st, statusMessage .shared [] [] 0x2000000 twoCells = .ok st ∧
      ∃ as, areas (fun _ => none) (getAddressMap 0x2000000 twoCells) = .ok as ∧
        st.pes.map (fun pe => ((pe.offset, pe.size), pe.localMemory)) = as.map fun a =>
          (window 0x2000000 a.entry,
            a.localMemory.map fun e => ⟨(window 0x2000000 e).1, e.2.range⟩) :=
  ⟨_, rfl, areas_of_statusMessage (fun _ => none) rfl⟩

/-- **Attribution of memories and debug regions.** For every block design and all debug regions:
there is no status message because the first slot is a memory, or the memories follow registers of
their cells and the debug regions have the numbers of such registers. -/
theorem areas_attributed_iff (inst : ℕ → ℕ) (debugs : List DebugRegion) (base : ℕ)
    (pes : List Cell) :
    (∀ status, areas (debugOf inst debugs) (getAddressMap base pes) = .ok status →
      AreasAttributed debugs (getAddressMap base pes) status) ↔
    (∃ c, (slotKinds pes).head? = some (c, .memory)) ∨
      Paired (slotKinds pes) ∧ Numbered inst debugs (slotKinds pes) := by
  obtain ⟨es, hes⟩ : ∃ es, es = getAddressMap base pes := ⟨_, rfl⟩
  have hnodup : es.Nodup := hes ▸ (condenses_getAddressMap base pes).nodup.of_map _
  have hhead : (∃ c, (slotKinds pes).head? = some (c, .memory)) ↔
      ∃ e ∈ es.head?, e.2.kind = .memory := by
    rw [← map_slotKind_getAddressMap base, ← hes, head?_map]
    simp [slotKind]
  rw [hhead, ← @areas_error_iff (debugOf inst debugs), ← map_slotKind_getAddressMap base, ← hes]
  cases hstatus : areas (debugOf inst debugs) es with
  | error err => simp
  | ok status =>
    have hplaced := placed_areas hstatus
    have hall : (∀ e ∈ es, e.2.kind = .memory → ∃ a ∈ status, a.localMemory = some e) ↔
        status.filterMap AreaPe.localMemory = es.filter (·.2.kind = .memory) := by
      constructor
      · intro h
        have hsub : es.filter (·.2.kind = .memory) ⊆ status.filterMap AreaPe.localMemory :=
          fun e he => by
            obtain ⟨hmem, hkind⟩ := mem_filter.mp he
            exact mem_filterMap.mpr (h e hmem (of_decide_eq_true hkind))
        exact hplaced.memories.eq_of_length_le ((hnodup.filter _).subperm hsub).length_le
      · intro h e he hkind
        exact mem_filterMap.mp (h ▸ mem_filter.mpr ⟨he, decide_eq_true hkind⟩)
    rw [← memories_iff_paired hstatus, ← debugs_iff_numbered hplaced, ← hall]
    constructor
    · intro h
      obtain ⟨hmem, hown, hdebug, hown'⟩ := h status rfl
      exact .inr ⟨⟨hmem, hown⟩, hdebug, hown'⟩
    · rintro (⟨err, herr⟩ | ⟨⟨hmem, hown⟩, hdebug, hown'⟩)
      · cases herr
      · intro status' hstatus'
        obtain rfl := Except.ok.inj hstatus'
        exact ⟨hmem, hown, hdebug, hown'⟩

/-- Debug regions of two kinds of processing elements: both have number 0, and the first is lost. -/
theorem debug_region_lost : ¬ ∀ status,
    areas (debugOf (fun _ => 0) [⟨0, 0x1000, 0x1000⟩, ⟨1, 0x9000, 0x1000⟩])
      (getAddressMap 0x2000000 twoCells) = .ok status →
    AreasAttributed [⟨0, 0x1000, 0x1000⟩, ⟨1, 0x9000, 0x1000⟩]
      (getAddressMap 0x2000000 twoCells) status := by
  intro h
  obtain ⟨a, ha, hdebug⟩ := (h _ rfl).debugs ⟨0, 0x1000, 0x1000⟩ (by simp)
  exact absurd (mem_map.mpr ⟨a, ha, hdebug⟩) (by decide)

end Tapasco.StatusMessage
