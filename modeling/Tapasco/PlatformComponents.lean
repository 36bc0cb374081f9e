import Tapasco.AddressMap

/-!
# Addresses of the Platform Components

The masters of a platform have address segments too. `assign_address` in
`platform/common/addressmap.tcl` gives the segments of one master their windows, one after the
other, and registers each as a platform component. The component's name for the first segment is
given and ends with `0`; each following name is made from the one before by a regular expression
that finds the number in it.

The expression is `(.*)(\d+)`, and its first part takes as much as it can. This leaves one digit for
the second part, which is increased and put in the place of this digit.
-/

open List

namespace Tapasco.PlatformComponents

open AddressMap

/-- The value of an interface in the address map of the masters. -/
structure MapEntry where
  offset : ℕ
  range : ℕ
  kind : Usage

/-- The dictionary `platform_components`: for each name a dictionary from bases to sizes. -/
abbrev Components := List (List Char × List (ℕ × ℕ))

def addPlatformComponent (name : List Char) (base size : ℕ) (d : Components) : Components :=
  Dict.set d name (Dict.set ((d.lookup name).getD []) base size)

/-- `get_platform_component_bases`: the first base and the first size of each name. -/
def getPlatformComponentBases (d : Components) : List (List Char × Option (ℕ × ℕ)) :=
  d.map fun c => (c.1, c.2.head?)

def increaseComponentName (component : List Char) : List Char :=
  match component.reverse.dropWhile (!·.isDigit) with
  | [] => component
  | suffix :: before => before.reverse ++ Nat.toDigits 10 (suffix.toNat - '0'.toNat + 1)

/-- The variables of `assign_address`. -/
structure Assignment where
  addressMap : List (ℕ × MapEntry)
  components : Components
  component : List Char
  base : ℕ

/-- The range that is used for a segment. -/
def srange (range : ℕ) (seg : Seg) : ℕ :=
  if range ≤ 0 then seg.range else range

/-- How far the next window is from that of a segment. -/
def advance (stride range : ℕ) (seg : Seg) : ℕ :=
  if stride = 0 then srange range seg else stride

def assignSeg (stride range : ℕ) (s : Assignment) (seg : Seg) : Assignment :=
  let s := { s with
    addressMap := Dict.set s.addressMap seg.intf ⟨s.base, srange range seg, seg.usage⟩ }
  let s := if s.component ≠ [] then
      { s with
        components := addPlatformComponent s.component s.base (srange range seg) s.components
        component := increaseComponentName s.component }
    else s
  { s with base := s.base + advance stride range seg }

/-- `assign_address`, for the segments in sorted order, and what it does to the components. -/
def assignAddress (stride range : ℕ) (s : Assignment) (segs : List Seg) : Assignment :=
  segs.foldl (assignSeg stride range) s

/-! ### Names -/

section

variable {pre : List Char}

/-- The name that is registered for segment `k`. -/
def name (pre : List Char) (k : ℕ) : List Char :=
  pre ++ replicate (k / 10) '1' ++ [Nat.digitChar (k % 10)]

theorem name_ne_nil (k : ℕ) : name pre k ≠ [] := by
  simp [name]

theorem increaseComponentName_concat (s : List Char) :
    ∀ d < 10, increaseComponentName (s ++ [Nat.digitChar d]) = s ++ Nat.toDigits 10 (d + 1) := by
  intro d hd
  have hdi : (Nat.digitChar d).isDigit = true ∧ (Nat.digitChar d).toNat - 48 = d := by
    revert d
    decide
  simp [increaseComponentName, hdi.1, hdi.2]

/-- **The next name**: after a 9 there is one more digit. -/
theorem increaseComponentName_name (k : ℕ) :
    increaseComponentName (name pre k) = name pre (k + 1) := by
  rw [name, increaseComponentName_concat _ _ (Nat.mod_lt _ (by decide)), name]
  by_cases h9 : k % 10 = 9
  · have hd : (k + 1) / 10 = k / 10 + 1 := by omega
    have hm : (k + 1) % 10 = 0 := by omega
    rw [h9, hd, hm, replicate_succ', ← append_assoc, append_assoc _ ['1']]
    rfl
  · have hd : (k + 1) / 10 = k / 10 := by omega
    have hm : (k + 1) % 10 = k % 10 + 1 := by omega
    rw [hd, hm, Nat.toDigits_of_lt_base (by omega)]

theorem name_injective : Function.Injective (name pre) := by
  intro j k h
  have hl := congrArg length h
  have hla := congrArg getLast? h
  simp only [name, length_append, length_replicate, length_singleton, getLast?_append,
    getLast?_singleton, Option.some_or, Option.some.injEq] at hl hla
  have hm : j % 10 = k % 10 := by
    have hi : ∀ a < 10, ∀ b < 10, Nat.digitChar a = Nat.digitChar b → a = b := by decide
    exact hi _ (Nat.mod_lt _ (by decide)) _ (Nat.mod_lt _ (by decide)) hla
  omega

theorem name_eq_of_lt : ∀ k < 20, name pre k = pre ++ Nat.toDigits 10 k := by
  intro k hk
  have hd : replicate (k / 10) '1' ++ [Nat.digitChar (k % 10)] = Nat.toDigits 10 k := by
    revert k
    decide
  rw [name, append_assoc, hd]

theorem name_twenty : name pre 20 ≠ pre ++ Nat.toDigits 10 20 := by
  rw [name, append_assoc, Ne, append_right_inj]
  decide

end

/-! ### Windows and components -/

section

variable {stride range : ℕ}

def windows (stride range base : ℕ) : List Seg → List (ℕ × ℕ)
  | [] => []
  | seg :: segs =>
    (base, srange range seg) :: windows stride range (base + advance stride range seg) segs

theorem length_windows (base : ℕ) (segs : List Seg) :
    (windows stride range base segs).length = segs.length := by
  induction segs generalizing base with
  | nil => rfl
  | cons seg segs ih => rw [windows, length_cons, ih, length_cons]

theorem le_of_mem_windows {base : ℕ} {segs : List Seg} {w : ℕ × ℕ}
    (hw : w ∈ windows stride range base segs) : base ≤ w.1 := by
  induction segs generalizing base with
  | nil => cases hw
  | cons seg segs ih =>
    rcases mem_cons.mp hw with rfl | hw
    · exact le_rfl
    · exact (Nat.le_add_right _ _).trans (ih hw)

theorem pairwise_windows {segs : List Seg}
    (hst : stride = 0 ∨ ∀ seg ∈ segs, srange range seg ≤ stride) (base : ℕ) :
    (windows stride range base segs).Pairwise fun a b => a.1 + a.2 ≤ b.1 := by
  induction segs generalizing base with
  | nil => exact .nil
  | cons seg segs ih =>
    refine .cons (fun w hw => ?_)
      (ih (hst.imp_right fun h seg' hs => h seg' (mem_cons_of_mem _ hs)) _)
    refine le_trans (Nat.add_le_add_left ?_ base) (le_of_mem_windows hw)
    rw [advance]
    split
    · exact le_rfl
    · exact hst.resolve_left ‹_› seg mem_cons_self

theorem addPlatformComponent_of_not_mem {c : List Char} {d : Components}
    (h : c ∉ d.map Prod.fst) (base size : ℕ) :
    addPlatformComponent c base size d = d ++ [(c, [(base, size)])] := by
  have hn : d.lookup c = none := by
    rw [lookup_eq_none_iff]
    exact fun e he => bne_iff_ne.mpr fun hc => h (hc ▸ mem_map_of_mem he)
  rw [addPlatformComponent, hn, Dict.set, if_neg h]
  rfl

/-- **Each segment becomes a component of its own**, under the next name. -/
theorem components_assignAddress {pre : List Char} {s : Assignment} {segs : List Seg} {i : ℕ}
    (hna : s.component = name pre i) (hf : ∀ k ≥ i, name pre k ∉ s.components.map Prod.fst) :
    (assignAddress stride range s segs).components = s.components ++
      ((windows stride range s.base segs).zipIdx i).map fun w => (name pre w.2, [w.1]) := by
  induction segs generalizing s i with
  | nil => exact (append_nil _).symm
  | cons seg segs ih =>
    have hc : (assignSeg stride range s seg).components =
        s.components ++ [(name pre i, [(s.base, srange range seg)])] := by
      rw [assignSeg, if_pos (hna ▸ name_ne_nil i), ← hna]
      exact addPlatformComponent_of_not_mem (hna ▸ hf i le_rfl) _ _
    have hn : (assignSeg stride range s seg).component = name pre (i + 1) := by
      rw [assignSeg, if_pos (hna ▸ name_ne_nil i), hna]
      exact increaseComponentName_name i
    have hb : (assignSeg stride range s seg).base = s.base + advance stride range seg := by
      rw [assignSeg]
      split <;> rfl
    have hr := ih (s := assignSeg stride range s seg) hn fun k hk hm => by
      rw [hc, map_append, mem_append] at hm
      rcases hm with hm | hm
      · exact hf k (Nat.le_of_succ_le hk) hm
      · exact absurd (name_injective (mem_singleton.mp hm)) (ne_of_gt hk)
    rw [assignAddress, foldl_cons, ← assignAddress, hr, hc, hb, windows, zipIdx_cons,
      map_cons, append_assoc, singleton_append]

/-- The segments of a master are registered under the prefix and their number, their windows do not
meet, and the components have their bases and sizes, after those of other masters. -/
def Consistent (stride range base : ℕ) (pre : List Char) (d : Components) (segs : List Seg) :
    Prop :=
  getPlatformComponentBases
      (assignAddress stride range ⟨[], d, pre ++ ['0'], base⟩ segs).components =
    getPlatformComponentBases d ++ ((windows stride range base segs).zipIdx.map fun w =>
        (pre ++ Nat.toDigits 10 w.2, some w.1)) ∧
    (windows stride range base segs).Pairwise fun a b => a.1 + a.2 ≤ b.1

/-- **Components are numbered and placed as they should exactly if there are at most 20**, for every
base, every stride that is 0 or at least each range, and every prefix that no component has yet.
This is the first call of `get_address_map`: the call in `make_status_config_json` registers the
same names again. -/
theorem components_consistent_iff {pre : List Char} {d : Components} {segs : List Seg}
    (hstride : stride = 0 ∨ ∀ seg ∈ segs, srange range seg ≤ stride)
    (hfresh : ∀ c ∈ d, ¬ pre <+: c.1) (base : ℕ) :
    Consistent stride range base pre d segs ↔ segs.length ≤ 20 := by
  have hnew (k : ℕ) : name pre k ∉ d.map Prod.fst := by
    intro hk
    obtain ⟨c, hc, heq⟩ := mem_map.mp hk
    exact hfresh c hc ⟨_, (append_assoc _ _ _).symm.trans heq.symm⟩
  have hcomp := @components_assignAddress stride range pre ⟨[], d, pre ++ ['0'], base⟩ segs 0
    (name_eq_of_lt 0 (by decide)).symm fun k _ => hnew k
  rw [Consistent, hcomp, getPlatformComponentBases, map_append, ← getPlatformComponentBases,
    append_right_inj, map_map, map_inj_left]
  constructor
  · rintro ⟨hnames, -⟩
    by_contra hgt
    have hlt : 20 < (windows stride range base segs).length := by
      rw [length_windows]
      exact Nat.lt_of_not_le hgt
    have hmem :
        ((windows stride range base segs)[20], 20) ∈ (windows stride range base segs).zipIdx :=
      mk_mem_zipIdx_iff_getElem?.mpr (getElem?_eq_getElem hlt)
    exact name_twenty (Prod.mk.inj (hnames _ hmem)).1
  · refine fun hle => ⟨fun w hw => ?_, pairwise_windows hstride base⟩
    have hlt := snd_lt_of_mem_zipIdx hw
    rw [length_windows] at hlt
    rw [Function.comp_apply, name_eq_of_lt w.2 (hlt.trans_le hle)]
    rfl

end

def seg64k : Seg :=
  ⟨0, .register, .slave, 0x10000, by decide⟩

theorem components_consistent_three : Consistent 0x10000 0 0 ['A'] [] (replicate 3 seg64k) :=
  (components_consistent_iff (.inr (by decide)) (by simp) 0).mpr (by decide)

/-- The component after number 19 is number 110. -/
theorem component_twenty_misnamed :
    ((getPlatformComponentBases (assignAddress 0x10000 0 ⟨[], [], ['A', '0'], 0⟩
      (replicate 21 seg64k)).components).map Prod.fst).getLast? = some ['A', '1', '1', '0'] := by
  decide +kernel

end Tapasco.PlatformComponents
