import Mathlib.Algebra.Order.Ring.Nat
import Mathlib.Data.List.Chain
import Mathlib.Data.List.Nodup

/-!
# Trees of Interconnects

An AXI interconnect has at most 16 ports on each side. To join more connections the tool flow
builds a tree of interconnects, stage by stage: `create_interconnect_tree` and
`create_smartconnect_tree` in `common.tcl`. With `masters` the outside masters are connected to the
slave ports of the first stage, and the tree has one master port. Otherwise the stages are
generated in the other direction.

The commands of the block design are the construction of a graph: interconnects with their ports,
pins of the group, and nets. A net joins a pin that drives it with one that it drives, whichever the
command names first. The ports of adjacent stages are paired by their position in sorted lists; the
order is arbitrary here. Clocks and resets are left out. Numbers of ports are divided as floating
point numbers, which is exact for all numbers below `2 ^ 53`.
-/

open List

namespace Tapasco.InterconnectTree

/-- A pin of the group or of an interconnect. -/
inductive Pin where
  | outsideSlave (idx : ℕ)
  | outsideMaster (idx : ℕ)
  | slave (ic idx : ℕ)
  | master (ic idx : ℕ)

/-- The two cores a tree is built of. -/
inductive Kind where
  | axiIc
  | axiSc (hasReset : Bool)

/-- An instance, with its number and ports. -/
structure Interconnect where
  kind : Kind
  icN : ℕ
  noSlaves : ℕ
  noMasters : ℕ

/-- A net, with the pin that drives it first. A pin that is missing is `none`. -/
abbrev Net := Pin × Option Pin

/-- The interconnects of each stage, the nets, and the pins of the group. -/
structure Tree where
  stages : List (List Interconnect)
  nets : List Net
  slaves : List Pin
  masters : List Pin

/-- The interconnects for a number of ports, `int(ceil($n / 16.0))`. The division of doubles is
exact below `2 ^ 53`. -/
def interconnectsFor (n : ℕ) : ℕ :=
  (n + 15) / 16

/-- The ports at each stage: `while {$n != 1}`, for a positive `n`. -/
def stagePorts (n : ℕ) : List ℕ :=
  if 1 < n then n :: stagePorts (interconnectsFor n) else []
decreasing_by
  rw [interconnectsFor]
  omega

/-- Pins of interconnects, numbered on each of them. -/
def pins (pin : ℕ → ℕ → Pin) (count : Interconnect → ℕ) (ics : List Interconnect) : List Pin :=
  ics.flatMap fun ic => (List.range (count ic)).map (pin ic.icN)

def slavePins : List Interconnect → List Pin :=
  pins .slave Interconnect.noSlaves

def masterPins : List Interconnect → List Pin :=
  pins .master Interconnect.noMasters

/-- The loop that connects pins with those at the same index of another list. -/
def connect : List Pin → List Pin → List Net
  | [], _ => []
  | m :: ms, ss => (m, ss.head?) :: connect ms ss.tail

section

variable (le : Pin → Pin → Bool) (kind : Kind) (masters : Bool) (totalOut : ℕ)

def interconnects (icN nports : ℕ) : List Interconnect :=
  (List.range (interconnectsFor nports)).map fun i =>
    let restPorts := min (nports - i * 16) 16
    ⟨kind, icN + i, if masters then restPorts else 1, if masters then 1 else restPorts⟩

/-- The masters of this stage are connected to the outside. -/
def isLast (nports : ℕ) : Bool :=
  masters && interconnectsFor nports == 1 || !masters && nports == totalOut

/-- The loop over the stages, from the interconnects of the stage before. -/
def stageLoop (ics : List Interconnect) (icN : ℕ) : List ℕ → Tree
  | [] => ⟨[], [], [], []⟩
  | nports :: ns =>
    let curr := interconnects kind masters icN nports
    let ss := (slavePins curr).mergeSort le
    let slaves := if ics.isEmpty then (List.range ss.length).map .outsideSlave else []
    let ms := if ics.isEmpty then slaves else (masterPins ics).mergeSort le
    let out := if isLast masters totalOut nports then (masterPins curr).mergeSort le else []
    let ports := (List.range out.length).map .outsideMaster
    let rest := stageLoop curr (icN + interconnectsFor nports) ns
    ⟨curr :: rest.stages, connect ms ss ++ (connect out ports ++ rest.nets), slaves ++ rest.slaves,
      ports ++ rest.masters⟩

/-- The body of both functions, with the bypass for a single connection. -/
def createTree (n : ℕ) : Tree :=
  if n = 1 then
    ⟨[[⟨kind, 0, 1, 1⟩]],
      [(.outsideSlave 0, some (.slave 0 0)), (.master 0 0, some (.outsideMaster 0))],
      [.outsideSlave 0], [.outsideMaster 0]⟩
  else
    stageLoop le kind masters n [] 0
      (if masters then stagePorts n else (stagePorts n).reverse)

def createInterconnectTree (n : ℕ) : Tree :=
  createTree le .axiIc masters n

def createSmartconnectTree (n : ℕ) (hasReset : Bool) : Tree :=
  createTree le (.axiSc hasReset) masters n

end

/-! ### What a tree is -/

/-- The nets join the pins of one list with those of another, each pin once. -/
def Matched (ms ss : List Pin) (nets : List Net) : Prop :=
  nets.map Prod.fst ~ ms ∧ nets.map Prod.snd ~ ss.map some

/-- The nets join the pins with the first stage, the masters of each stage with the slaves of the
next one, and those of the last stage with pins of the group. -/
def Links (out : List Pin) : List Pin → List (List Interconnect) → List Net → Prop
  | ms, [], nets => Matched ms out nets
  | ms, stage :: stages, nets => ∃ here rest, nets = here ++ rest ∧
      Matched ms (slavePins stage) here ∧ Links out (masterPins stage) stages rest

/-- The ports on the side with many connections, and on the other one. -/
def Interconnect.wide (masters : Bool) (ic : Interconnect) : ℕ :=
  if masters then ic.noSlaves else ic.noMasters

def Interconnect.narrow (masters : Bool) (ic : Interconnect) : ℕ :=
  if masters then ic.noMasters else ic.noSlaves

/-- A tree for `n` connections. -/
structure IsTree (masters : Bool) (n : ℕ) (t : Tree) : Prop where
  outsideSlaves : t.slaves = (List.range (if masters then n else 1)).map .outsideSlave
  outsideMasters : t.masters = (List.range (if masters then 1 else n)).map .outsideMaster
  links : Links t.masters t.slaves t.stages t.nets
  distinct : (t.stages.flatten.map Interconnect.icN).Nodup
  ports : ∀ ic ∈ t.stages.flatten, ic.wide masters ≤ 16 ∧ ic.narrow masters = 1

/-! ### The ports of a stage -/

theorem length_pins (pin : ℕ → ℕ → Pin) (count : Interconnect → ℕ) (ics : List Interconnect) :
    (pins pin count ics).length = (ics.map count).sum := by
  simp [pins, length_flatMap]

theorem sum_restPorts (n k : ℕ) :
    ((List.range k).map fun i => min (n - i * 16) 16).sum = min n (16 * k) := by
  induction k with
  | zero => simp
  | succ k ih =>
    rw [range_succ, map_append, sum_append, ih, map_singleton, sum_singleton]
    omega

section

variable {le : Pin → Pin → Bool} {kind : Kind} {masters : Bool} {totalOut icN n : ℕ}

/-- The slaves and masters of a stage, by its number of ports. -/
def numSlaves (masters : Bool) (n : ℕ) : ℕ :=
  if masters then n else interconnectsFor n

def numMasters (masters : Bool) (n : ℕ) : ℕ :=
  if masters then interconnectsFor n else n

theorem sum_ports :
    ((List.range (interconnectsFor n)).map fun i => min (n - i * 16) 16).sum = n := by
  rw [sum_restPorts, interconnectsFor]
  omega

theorem length_slavePins :
    (slavePins (interconnects kind masters icN n)).length = numSlaves masters n := by
  rw [slavePins, length_pins, interconnects, map_map, numSlaves]
  cases masters
  · simp [Function.comp_def]
  · exact sum_ports

theorem length_masterPins :
    (masterPins (interconnects kind masters icN n)).length = numMasters masters n := by
  rw [masterPins, length_pins, interconnects, map_map, numMasters]
  cases masters
  · exact sum_ports
  · simp [Function.comp_def]

theorem ports_of_mem_interconnects {ic : Interconnect} (h : ic ∈ interconnects kind masters icN n) :
    ic.wide masters ≤ 16 ∧ ic.narrow masters = 1 := by
  obtain ⟨i, -, rfl⟩ := mem_map.mp h
  cases masters <;> exact ⟨min_le_right .., rfl⟩

theorem isEmpty_interconnects (h : 0 < n) : (interconnects kind masters icN n).isEmpty = false := by
  have hp : interconnectsFor n ≠ 0 := by
    rw [interconnectsFor]
    omega
  simpa [interconnects] using hp

/-- **Lists of the same length are matched**, also when they are sorted. -/
theorem matched_connect {ms ss ms' ss' : List Pin} (hm : ms ~ ms') (hs : ss ~ ss')
    (hl : ms'.length = ss'.length) : Matched ms' ss' (connect ms ss) := by
  have he : ∀ ms ss : List Pin, ms.length = ss.length →
      (connect ms ss).map Prod.fst = ms ∧ (connect ms ss).map Prod.snd = ss.map some := by
    intro ms
    induction ms with
    | nil => intro ss h; simp [connect, length_eq_zero_iff.mp h.symm]
    | cons m ms ih =>
      intro ss h
      cases ss with
      | nil => cases h
      | cons s ss => simp [connect, ih ss (Nat.succ.inj h)]
  obtain ⟨hf, hsn⟩ := he ms ss (by rw [hm.length_eq, hs.length_eq, hl])
  rw [Matched, hf, hsn]
  exact ⟨hm, hs.map some⟩

/-! ### The stages -/

/-- The pins that are connected to the slaves of a stage: those of the group, or the masters of the
stage before. -/
def drivers (ics : List Interconnect) (n : ℕ) : List Pin :=
  if ics.isEmpty then (List.range n).map .outsideSlave else masterPins ics

theorem matched_drivers {ics curr : List Interconnect} {n : ℕ} (hc : (slavePins curr).length = n)
    (hi : ics.isEmpty = false → (masterPins ics).length = n) :
    Matched (drivers ics n) (slavePins curr)
      (connect (if ics.isEmpty then if ics.isEmpty then (List.range n).map .outsideSlave else []
        else (masterPins ics).mergeSort le) ((slavePins curr).mergeSort le)) := by
  rw [drivers]
  cases he : ics.isEmpty with
  | true =>
    simp only [if_true]
    exact matched_connect (.refl _) (mergeSort_perm ..) (by simp [hc])
  | false =>
    simp only [Bool.false_eq_true, if_false]
    exact matched_connect (mergeSort_perm ..) (mergeSort_perm ..) ((hi he).trans hc.symm)

/-- **The loop connects its stages**, if each has as many masters as the next one has slaves, and
only the last is taken for it. -/
theorem stageLoop_spec {ics : List Interconnect} {a : ℕ} {ns : List ℕ}
    (hch : (a :: ns).IsChain fun a b => numMasters masters a = numSlaves masters b)
    (hp : ∀ b ∈ a :: ns, 0 < b) (hini : ∀ b ∈ (a :: ns).dropLast, isLast masters totalOut b = false)
    (hl : ∀ b ∈ (a :: ns).getLast?, isLast masters totalOut b = true)
    (hi : ics.isEmpty = false → (masterPins ics).length = numSlaves masters a) :
    let t := stageLoop le kind masters totalOut ics icN (a :: ns)
    t.slaves = (if ics.isEmpty then (List.range (numSlaves masters a)).map .outsideSlave else []) ∧
      (∀ b ∈ (a :: ns).getLast?,
        t.masters = (List.range (numMasters masters b)).map .outsideMaster) ∧
      Links t.masters (drivers ics (numSlaves masters a)) t.stages t.nets := by
  have hs := @length_slavePins kind masters icN a
  have hm := @length_masterPins kind masters icN a
  induction ns generalizing ics icN a with
  | nil =>
    have ha : isLast masters totalOut a = true := hl a rfl
    simp only [stageLoop, ha, if_true, length_mergeSort, hs, hm, append_nil]
    refine ⟨trivial, fun b hb => Option.some.inj hb ▸ rfl, _, _, rfl, matched_drivers hs hi, ?_⟩
    exact matched_connect (mergeSort_perm ..) (.refl _) (by simp [hm])
  | cons b ns ih =>
    have ha : isLast masters totalOut a = false := hini a (by simp)
    obtain ⟨hab, hch⟩ := isChain_cons_cons.mp hch
    obtain ⟨hrs, hrm, hr⟩ := @ih (icN + interconnectsFor a) (interconnects kind masters icN a) b hch
      (fun c hc => hp c (mem_cons_of_mem _ hc)) (fun c hc => hini c (mem_cons_of_mem _ hc)) hl
      (fun _ => hm.trans hab) length_slavePins length_masterPins
    simp only [drivers, isEmpty_interconnects (hp a mem_cons_self), Bool.false_eq_true,
      if_false] at hrs hr
    rw [stageLoop]
    simp only [ha, Bool.false_eq_true, if_false, length_nil, List.range_zero, map_nil, nil_append,
      length_mergeSort, hs, hrs, append_nil, connect]
    exact ⟨trivial, hrm, _, _, rfl, matched_drivers hs hi, hr⟩

theorem icN_stageLoop (ics : List Interconnect) (icN : ℕ) (ns : List ℕ) :
    (∃ k, (stageLoop le kind masters totalOut ics icN ns).stages.flatten.map Interconnect.icN =
        range' icN k) ∧
      ∀ ic ∈ (stageLoop le kind masters totalOut ics icN ns).stages.flatten,
        ic.wide masters ≤ 16 ∧ ic.narrow masters = 1 := by
  induction ns generalizing ics icN with
  | nil => exact ⟨⟨0, rfl⟩, fun _ h => absurd h not_mem_nil⟩
  | cons a ns ih =>
    obtain ⟨⟨k, hk⟩, hp⟩ := ih (interconnects kind masters icN a) (icN + interconnectsFor a)
    have hc : (interconnects kind masters icN a).map Interconnect.icN =
        range' icN (interconnectsFor a) := by
      rw [interconnects, map_map, range'_eq_map_range]
      rfl
    refine ⟨⟨interconnectsFor a + k, ?_⟩, fun ic hi => ?_⟩
    · rw [stageLoop, flatten_cons, map_append, hc, hk, range'_append_1]
    · rw [stageLoop, flatten_cons, mem_append] at hi
      exact hi.elim ports_of_mem_interconnects (hp ic)

/-! ### The ports at each stage -/

/-- Each stage has as many ports as the one before has interconnects; only the last has one. -/
theorem stagePorts_spec (n : ℕ) :
    (stagePorts n).IsChain (fun a b => b = interconnectsFor a) ∧
      (∀ a ∈ stagePorts n, 1 < a ∧ a ≤ n) ∧ (∀ a ∈ (stagePorts n).tail, a < n) ∧
      (∀ a ∈ (stagePorts n).dropLast, interconnectsFor a ≠ 1) ∧
      ∀ a ∈ (stagePorts n).getLast?, interconnectsFor a = 1 := by
  fun_induction stagePorts n with
  | case1 n hn ih =>
    obtain ⟨hc, hle, hlt, hi, hla⟩ := ih
    have hl : interconnectsFor n < n := by
      rw [interconnectsFor]
      omega
    have hr : ∀ a ∈ stagePorts (interconnectsFor n), a < n := fun a ha =>
      (hle a ha).2.trans_lt hl
    by_cases ho : 1 < interconnectsFor n
    · rw [stagePorts, if_pos ho] at hc hle hlt hi hla hr ⊢
      refine ⟨.cons_cons rfl hc, forall_mem_cons.mpr ⟨⟨hn, le_rfl⟩, fun a ha => ?_⟩, hr, ?_, hla⟩
      · exact ⟨(hle a ha).1, (hr a ha).le⟩
      · exact forall_mem_cons.mpr ⟨(ne_of_lt ho).symm, hi⟩
    · rw [stagePorts, if_neg ho]
      have heq : interconnectsFor n = 1 := by
        rw [interconnectsFor] at ho ⊢
        omega
      simp [hn, heq]
  | case2 n hn => simp

theorem stages_spec (masters : Bool) (hn : 1 < n) {l : List ℕ}
    (hl : l = if masters then stagePorts n else (stagePorts n).reverse) :
    l.IsChain (fun a b => numMasters masters a = numSlaves masters b) ∧ (∀ a ∈ l, 0 < a) ∧
      (∀ a ∈ l.dropLast, isLast masters n a = false) ∧
      (∀ a ∈ l.getLast?, isLast masters n a = true ∧
        numMasters masters a = if masters then 1 else n) ∧
      ∀ a ∈ l.head?, numSlaves masters a = if masters then n else 1 := by
  obtain ⟨hc, hle, hlt, hi, hla⟩ := stagePorts_spec n
  have hh : (stagePorts n).head? = some n := by
    rw [stagePorts, if_pos hn]
    rfl
  have hp : ∀ a ∈ stagePorts n, 0 < a := fun a ha => Nat.zero_lt_of_lt (hle a ha).1
  cases masters with
  | true =>
    subst hl
    refine ⟨hc.imp fun a b h => h.symm, hp, fun a ha => ?_, fun a ha => ?_, fun a ha => ?_⟩
    · simpa [isLast] using hi a ha
    · simpa [isLast, numMasters] using hla a ha
    · exact Option.mem_unique ha hh
  | false =>
    subst hl
    refine ⟨isChain_reverse.mpr (hc.imp fun a b h => h), fun a ha => hp a (mem_reverse.mp ha),
      fun a ha => ?_, fun a ha => ?_, fun a ha => ?_⟩
    · rw [if_neg (by decide), dropLast_reverse, mem_reverse] at ha
      simpa [isLast] using ne_of_lt (hlt a ha)
    · rw [if_neg (by decide), getLast?_reverse, hh] at ha
      simp [isLast, numMasters, ← Option.some.inj ha]
    · rw [if_neg (by decide), head?_reverse] at ha
      exact hla a ha

theorem isTree_createTree (le : Pin → Pin → Bool) (kind : Kind) (masters : Bool) (hn : 1 ≤ n) :
    IsTree masters n (createTree le kind masters n) := by
  rw [createTree]
  split
  · subst n
    refine ⟨by cases masters <;> rfl, by cases masters <;> rfl,
      ⟨[_], [_], rfl, ⟨.refl _, .refl _⟩, ⟨.refl _, .refl _⟩⟩, by simp, ?_⟩
    cases masters <;> simp [Interconnect.wide, Interconnect.narrow]
  · generalize hl : (if masters then stagePorts n else (stagePorts n).reverse) = l
    obtain ⟨hc, hp, hi, hla, hh⟩ := stages_spec masters (by omega) hl.symm
    obtain ⟨⟨k, hk⟩, hpo⟩ := @icN_stageLoop le kind masters n [] 0 l
    cases l with
    | nil =>
      have hne : stagePorts n ≠ [] := by
        rw [stagePorts, if_pos (by omega)]
        exact cons_ne_nil _ _
      cases masters <;> simp [hne] at hl
    | cons a ns =>
      obtain ⟨hs, hm, hli⟩ := @stageLoop_spec le kind masters n 0 [] a ns hc hp hi
        (fun b hb => (hla b hb).1) (by simp)
      obtain ⟨b, hb⟩ : ∃ b, b ∈ (a :: ns).getLast? :=
        ⟨_, getLast?_eq_some_getLast (cons_ne_nil a ns)⟩
      rw [hh a rfl] at hs hli
      exact ⟨hs, (hla b hb).2 ▸ hm b hb, hs ▸ hli, hk ▸ nodup_range', hpo⟩

end

/-- **Trees of both kinds connect all their ports**, for every number of connections and whatever
the order of the sorted lists. -/
theorem trees_connected (le : Pin → Pin → Bool) (masters : Bool) {n : ℕ} (hn : 1 ≤ n) :
    IsTree masters n (createInterconnectTree le masters n) ∧
      ∀ hasReset, IsTree masters n (createSmartconnectTree le masters n hasReset) :=
  ⟨isTree_createTree le _ masters hn, fun _ => isTree_createTree le _ masters hn⟩

theorem trees_connected_three_hundred :
    IsTree true 300 (createInterconnectTree (fun _ _ => true) true 300) :=
  (trees_connected _ true (by decide)).1

end Tapasco.InterconnectTree
