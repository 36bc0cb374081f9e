import Tapasco.Pe
import Mathlib.Data.Nat.ModEq
import Mathlib.Tactic.Ring

/-!
# Reading over the Simulated Bus

`AXI4Master.read` in `amba.py` reads a burst of beats. The slave always drives the whole word of
the bus that contains the bytes of a beat, and the master keeps those lanes in which it expects
them. This module embeds the master and a slave with a memory for buses of every width and beats
of every size.

A value that does not fit into its signal cannot be driven, and a coroutine that raises ends: in
both cases no response comes, and the read does not return.
-/

open List
open Nat (log2)

namespace Tapasco.Amba

/-! ### The bus -/

inductive AxBurst where
  | fixed | incr | wrap
  deriving DecidableEq

inductive XResp where
  | okay | exokay | slverr | decerr
  deriving DecidableEq

/-- A bus: the number of its byte lanes, and whether it has the signals for IDs. -/
structure Bus where
  nLanes : ℕ
  hasId : Bool

/-- The signals of the read address channel. `ARLEN` has eight bits and `ARSIZE` has three. -/
structure ReadAddress where
  arid : ℕ
  araddr : ℕ
  arlen : ℕ
  arsize : ℕ
  arburst : AxBurst

/-! ### The slave -/

def sizeToBytesInBeat (axSize : ℕ) : Option ℕ :=
  if axSize < 7 then some (2 ^ axSize) else none

/-- One iteration of the loop in `handle_read_req`: the response and the word on the bus. -/
def slaveBeat (nLanes : ℕ) (memory : List Byte) (nBytes addr : ℕ) : XResp × ℕ :=
  if addr + nBytes ≤ memory.length then
    let lane0Addr := addr / nLanes * nLanes
    (.okay, ofLeBytes ((memory.drop lane0Addr).take nLanes))
  else (.slverr, 42)

def slaveBeats (nLanes : ℕ) (memory : List Byte) (nBytes : ℕ) (arburst : AxBurst) :
    ℕ → ℕ → List (XResp × ℕ)
  | 0, _ => []
  | nBeats + 1, addr =>
    slaveBeat nLanes memory nBytes addr ::
      slaveBeats nLanes memory nBytes arburst nBeats
        (if arburst ≠ .fixed then addr + nBytes else addr)

def handleReadReq (nLanes : ℕ) (memory : List Byte) (req : ReadAddress) :
    Option (List (XResp × ℕ)) := do
  let nBytes ← sizeToBytesInBeat req.arsize
  let alignedAddr := req.araddr / nBytes * nBytes
  pure (slaveBeats nLanes memory nBytes req.arburst (req.arlen + 1) alignedAddr)

/-! ### The master -/

def lowerLane0 (addr nLanes : ℕ) : ℕ :=
  addr - addr / nLanes * nLanes

def lowerLaneN (addressN nLanes : ℕ) : ℕ :=
  addressN - addressN / nLanes * nLanes

def upperLaneN (lowerLaneN size : ℕ) : ℕ :=
  lowerLaneN + size - 1

def upperLane0 (addr alignedAddr size nLanes : ℕ) : ℕ :=
  alignedAddr + (size - 1) - addr / nLanes * nLanes

/-- `_compute_lanes`, for data of the given length. -/
def computeLanes (alignedAddr size length nLanes : ℕ) : List ℕ × List ℕ :=
  let addressNL := (List.range' 1 (length - 1)).map fun n => alignedAddr + (n - 1) * size
  let lowerLanes := addressNL.map (lowerLaneN · nLanes)
  let upperLanes := lowerLanes.map (upperLaneN · size)
  (lowerLanes, upperLanes)

def applyLanes (word lower upper : ℕ) (rsp : XResp) : ℕ :=
  if rsp = .okay then
    (List.range' lower (upper + 1 - lower)).foldl
      (fun adjusted i => adjusted ||| (word &&& 0xFF <<< (i * 8))) 0
  else 0

def arChannel (bus : Bus) (id addr length nBytes : ℕ) (burst : AxBurst) : Option ReadAddress :=
  if 1 ≤ length ∧ length - 1 < 2 ^ 8 ∧ Nat.log2 nBytes < 2 ^ 3 then
    some
      { arid := if bus.hasId then id else 0
        araddr := addr
        arlen := length - 1
        arsize := Nat.log2 nBytes
        arburst := burst }
  else none

/-- **`AXI4Master.read`**, from a slave with a memory. -/
def read (bus : Bus) (memory : List Byte) (addr length nBytes : ℕ) (burst : AxBurst) (id : ℕ) :
    Option (List XResp × List ℕ × ℕ) := do
  let alignedAddr := addr / nBytes * nBytes
  let req ← arChannel bus id alignedAddr length nBytes burst
  let responses ← handleReadReq bus.nLanes memory req
  let rsp := responses.map Prod.fst
  let data := responses.map Prod.snd
  let low0 := lowerLane0 addr bus.nLanes
  let upper0 := upperLane0 addr alignedAddr nBytes bus.nLanes
  let lanes := computeLanes alignedAddr nBytes data.length bus.nLanes
  let lowerLanes := low0 :: lanes.1
  let upperLanes := upper0 :: lanes.2
  let adjusted := List.zipWith (fun word lane => applyLanes word.1 lane.1 lane.2 word.2)
    (data.zip rsp) (lowerLanes.zip upperLanes)
  pure (rsp, adjusted, req.arid)

/-! ### What a burst should return -/

/-- The bytes from an address on in their byte lanes, with all other lanes zero. -/
def laneWord (nLanes : ℕ) (memory : List Byte) (addr nBytes : ℕ) : ℕ :=
  ofLeBytes ((memory.drop addr).take nBytes) <<< (8 * (addr % nLanes))

/-- **A burst with incrementing addresses is right**: from every memory that has the addresses,
beat `k` returns the bytes at `addr + k * nBytes`. -/
def ReadsLanes (bus : Bus) (addr length nBytes : ℕ) : Prop :=
  ∀ (memory : List Byte) (id : ℕ), addr + length * nBytes ≤ memory.length →
    read bus memory addr length nBytes .incr id =
      some (List.replicate length .okay,
        (List.range length).map fun k => laneWord bus.nLanes memory (addr + k * nBytes) nBytes,
        if bus.hasId then id else 0)

/-! ### Bits of a word -/

theorem testBit_ofLeBytes (l : List Byte) (j : ℕ) :
    (ofLeBytes l).testBit j = (l.getD (j / 8) 0).getLsbD (j % 8) := by
  induction l generalizing j with
  | nil => simp [ofLeBytes]
  | cons b l ih =>
    have hw : ofLeBytes (b :: l) = 2 ^ 8 * ofLeBytes l + b.toNat := add_comm _ _
    rw [hw, Nat.testBit_two_pow_mul_add _ b.isLt]
    split
    · rename_i hlt
      rw [Nat.div_eq_of_lt hlt, Nat.mod_eq_of_lt hlt]
      rfl
    · rename_i hge
      obtain ⟨i, rfl⟩ := Nat.exists_eq_add_of_le (Nat.le_of_not_lt hge)
      rw [Nat.add_sub_cancel_left, ih, Nat.add_div_left i (by decide), Nat.add_mod_left]
      rfl

theorem testBit_lane (i j : ℕ) : (0xFF <<< (i * 8)).testBit j = decide (j / 8 = i) := by
  have ho : (0xFF : ℕ) = 2 ^ 8 - 1 := rfl
  rw [Nat.testBit_shiftLeft, ho, Nat.testBit_two_pow_sub_one]
  by_cases h : j / 8 = i
  · rw [decide_eq_true h, Bool.and_eq_true, decide_eq_true_eq, decide_eq_true_eq]
    omega
  · rw [decide_eq_false h, Bool.and_eq_false_iff, decide_eq_false_iff_not, decide_eq_false_iff_not]
    omega

theorem testBit_foldl_lanes (word : ℕ) (l : List ℕ) (adjusted j : ℕ) :
    (l.foldl (fun adjusted i => adjusted ||| (word &&& 0xFF <<< (i * 8))) adjusted).testBit j =
      (adjusted.testBit j || (word.testBit j && decide (j / 8 ∈ l))) := by
  induction l generalizing adjusted with
  | nil => simp
  | cons i l ih =>
    rw [foldl_cons, ih, Nat.testBit_or, Nat.testBit_and, testBit_lane]
    simp only [mem_cons, Bool.decide_or, Bool.and_or_distrib_left, Bool.or_assoc]

theorem testBit_applyLanes (word lower upper j : ℕ) :
    (applyLanes word lower upper .okay).testBit j =
      (word.testBit j && decide (lower ≤ j / 8 ∧ j / 8 ≤ upper)) := by
  rw [applyLanes, if_pos rfl, testBit_foldl_lanes, Nat.zero_testBit, Bool.false_or]
  congr 2
  rw [mem_range'_1, eq_iff_iff]
  omega

/-! ### One beat -/

/-- The byte at an address of a memory, or zero behind its end. -/
def byteAt (memory : List Byte) (addr : ℕ) : Byte :=
  memory.getD addr 0

theorem getD_take_drop (mem : List Byte) (addr n i : ℕ) :
    ((mem.drop addr).take n).getD i 0 = if i < n then byteAt mem (addr + i) else 0 := by
  rw [byteAt, getD_eq_getElem?_getD, getElem?_take]
  split
  · rw [getElem?_drop, getD_eq_getElem?_getD]
  · rfl

theorem testBit_laneWord (nLanes : ℕ) (mem : List Byte) (addr nBytes j : ℕ) :
    (laneWord nLanes mem addr nBytes).testBit j =
      (decide (addr % nLanes ≤ j / 8 ∧ j / 8 < addr % nLanes + nBytes) &&
        (byteAt mem (addr + (j / 8 - addr % nLanes))).getLsbD (j % 8)) := by
  rw [laneWord, Nat.testBit_shiftLeft, testBit_ofLeBytes, getD_take_drop]
  by_cases hle : 8 * (addr % nLanes) ≤ j
  · obtain ⟨i, rfl⟩ := Nat.exists_eq_add_of_le hle
    have hd : (8 * (addr % nLanes) + i) / 8 = addr % nLanes + i / 8 :=
      Nat.mul_add_div (by decide) _ _
    rw [decide_eq_true (Nat.le_add_right _ _), Bool.true_and, Nat.add_sub_cancel_left, hd,
      Nat.add_sub_cancel_left, Nat.mul_add_mod]
    by_cases hlt : i / 8 < nBytes
    · rw [if_pos hlt, decide_eq_true (by omega), Bool.true_and]
    · rw [if_neg hlt, decide_eq_false (by omega), Bool.false_and]
      exact BitVec.getLsbD_zero
  · rw [decide_eq_false hle, decide_eq_false (by omega), Bool.false_and, Bool.false_and]

theorem testBit_applyLanes_word (mem : List Byte) (nLanes base lower upper j : ℕ) :
    (applyLanes (ofLeBytes ((mem.drop base).take nLanes)) lower upper .okay).testBit j =
      (decide (lower ≤ j / 8 ∧ j / 8 ≤ upper ∧ j / 8 < nLanes) &&
        (byteAt mem (base + j / 8)).getLsbD (j % 8)) := by
  rw [testBit_applyLanes, testBit_ofLeBytes, getD_take_drop, Bool.and_comm]
  by_cases hlt : j / 8 < nLanes <;> simp [hlt]

section Beat

variable {nLanes nBytes addr lower : ℕ}

/-- **A beat is right** for every memory exactly if the word on the bus and the lanes that are kept
are those of its bytes. -/
theorem beat_eq_iff (base : ℕ) (hp : 0 < nBytes) (hl : nBytes ∣ addr % nLanes)
    (hf : addr % nLanes + nBytes ≤ nLanes) (hlo : nBytes ∣ lower) {size : ℕ} (hsi : addr < size) :
    (∀ memory : List Byte, size ≤ memory.length →
      applyLanes (ofLeBytes ((memory.drop base).take nLanes)) lower (lower + nBytes - 1) .okay =
        laneWord nLanes memory addr nBytes) ↔
      lower = addr % nLanes ∧ base + addr % nLanes = addr := by
  constructor
  · intro h
    -- a memory in which only the first byte of the beat is not zero
    have hby (i : ℕ) : byteAt ((List.replicate size 0).set addr 1) i =
        if i = addr then 1 else 0 := by
      rw [byteAt, getD_eq_getElem?_getD, getElem?_set, length_replicate,
        if_pos hsi, getElem?_replicate]
      by_cases hi : i = addr
      · rw [if_pos hi.symm, if_pos hi]
        rfl
      · rw [if_neg (Ne.symm hi), if_neg hi]
        split <;> rfl
    have hd : 8 * (addr % nLanes) / 8 = addr % nLanes := Nat.mul_div_cancel_left _ (by decide)
    have hb := congrArg (fun w => w.testBit (8 * (addr % nLanes)))
      (h ((List.replicate size 0).set addr 1) (by simp))
    simp only [testBit_applyLanes_word, testBit_laneWord, hd, Nat.mul_mod_right, Nat.sub_self,
      add_zero, hby, if_pos] at hb
    rw [decide_eq_true (p := addr % nLanes ≤ _ ∧ _) ⟨le_refl _, by omega⟩, Bool.true_and,
      show (1 : Byte).getLsbD 0 = true from rfl, Bool.and_eq_true, decide_eq_true_eq] at hb
    obtain ⟨⟨hle, hle', -⟩, hs⟩ := hb
    refine ⟨?_, ?_⟩
    · obtain ⟨q, rfl⟩ := hlo
      obtain ⟨r, hr⟩ := hl
      rw [hr] at hle hle' ⊢
      have hq : q ≤ r := Nat.le_of_mul_le_mul_left hle hp
      have hrq : r < q + 1 := by
        refine Nat.lt_of_mul_lt_mul_left (a := nBytes) ?_
        rw [mul_add, mul_one]
        omega
      rw [le_antisymm hq (Nat.le_of_lt_succ hrq)]
    · by_contra hne
      rw [if_neg hne] at hs
      exact absurd hs (by decide)
  · rintro ⟨rfl, hba⟩ memory -
    refine Nat.eq_of_testBit_eq fun j => ?_
    rw [testBit_applyLanes_word, testBit_laneWord]
    by_cases hin : addr % nLanes ≤ j / 8 ∧ j / 8 < addr % nLanes + nBytes
    · rw [decide_eq_true hin, decide_eq_true (by omega)]
      congr 3
      omega
    · rw [decide_eq_false hin, decide_eq_false (by omega)]
      rfl

end Beat

/-! ### A burst -/

theorem slaveBeats_incr (nLanes : ℕ) (mem : List Byte) (nBytes nBeats addr : ℕ) :
    slaveBeats nLanes mem nBytes .incr nBeats addr =
      (List.range nBeats).map fun k => slaveBeat nLanes mem nBytes (addr + k * nBytes) := by
  induction nBeats generalizing addr with
  | zero => rfl
  | succ nBeats ih =>
    rw [slaveBeats, if_pos (by decide), ih, range_succ_eq_map, map_cons, map_map,
      zero_mul, add_zero]
    congr 2
    funext k
    rw [Function.comp_apply, Nat.succ_mul, add_assoc, add_comm nBytes]

/-- **The lanes that the master keeps**: those of the first beat, and for every other beat those
of the beat before. -/
theorem lanes_eq (nLanes : ℕ) {nBytes addr : ℕ} (hp : 0 < nBytes) (ha : nBytes ∣ addr)
    {length : ℕ} (hl : 1 ≤ length) :
    (lowerLane0 addr nLanes :: (computeLanes (addr / nBytes * nBytes) nBytes length nLanes).1).zip
        (upperLane0 addr (addr / nBytes * nBytes) nBytes nLanes ::
          (computeLanes (addr / nBytes * nBytes) nBytes length nLanes).2) =
      (List.range length).map fun k =>
        ((addr + (k - 1) * nBytes) % nLanes, (addr + (k - 1) * nBytes) % nLanes + nBytes - 1) := by
  have hm (n : ℕ) : n - n / nLanes * nLanes = n % nLanes := by
    rw [mul_comm, Nat.mod_eq_sub_mul_div]
  obtain ⟨n, rfl⟩ := Nat.exists_eq_add_of_le' hl
  rw [range_succ_eq_map, map_cons, zip_cons_cons, Nat.div_mul_cancel ha]
  congr 1
  · have hle := Nat.div_mul_le_self addr nLanes
    rw [lowerLane0, upperLane0, hm, Nat.zero_sub, zero_mul, add_zero, ← hm]
    congr 1
    omega
  · simp only [computeLanes, lowerLaneN, upperLaneN, hm, map_map, Nat.add_sub_cancel]
    refine ext_getElem (by simp) fun k hk hk' => ?_
    simp [add_comm 1 k]

/-- The address of the word that the slave drives in a beat. The size of its beats is a power of
two. -/
def wordAddr (nLanes nBytes addr k : ℕ) : ℕ :=
  let size := 2 ^ Nat.log2 nBytes
  (addr / size * size + k * size) / nLanes * nLanes

section Burst

variable {bus : Bus} {addr length nBytes : ℕ}

theorem read_eq_none (h : ¬ (1 ≤ length ∧ length ≤ 256 ∧ log2 nBytes < 7))
    (mem : List Byte) (id : ℕ) : read bus mem addr length nBytes .incr id = none := by
  rw [read, arChannel]
  split
  · rename_i hd
    have hs : ¬ log2 nBytes < 7 := by omega
    simp only [Option.bind_eq_bind, Option.bind_some, handleReadReq, sizeToBytesInBeat,
      if_neg hs, Option.bind_none]
  · rfl

theorem read_eq (hp : 0 < nBytes) (ha : nBytes ∣ addr)
    (h : 1 ≤ length ∧ length ≤ 256 ∧ log2 nBytes < 7) (mem : List Byte) (id : ℕ)
    (hm : addr + length * nBytes ≤ mem.length) :
    read bus mem addr length nBytes .incr id =
      some (List.replicate length .okay, (List.range length).map fun k =>
          applyLanes
            (ofLeBytes ((mem.drop (wordAddr bus.nLanes nBytes addr k)).take bus.nLanes))
            ((addr + (k - 1) * nBytes) % bus.nLanes)
            ((addr + (k - 1) * nBytes) % bus.nLanes + nBytes - 1) .okay,
        if bus.hasId then id else 0) := by
  obtain ⟨hl, hl', hs⟩ := h
  have hr : arChannel bus id (addr / nBytes * nBytes) length nBytes .incr =
      some ⟨if bus.hasId then id else 0, addr, length - 1, log2 nBytes, .incr⟩ := by
    rw [arChannel, if_pos ⟨hl, by omega, by omega⟩, Nat.div_mul_cancel ha]
  have hby : sizeToBytesInBeat (log2 nBytes) = some (2 ^ log2 nBytes) := if_pos hs
  have hle : 2 ^ log2 nBytes ≤ nBytes := Nat.log2_self_le (ne_of_gt hp)
  have hb : slaveBeats bus.nLanes mem (2 ^ log2 nBytes) .incr (length - 1 + 1)
      (addr / 2 ^ log2 nBytes * 2 ^ log2 nBytes) =
        (List.range length).map fun k => (.okay, ofLeBytes
          ((mem.drop (wordAddr bus.nLanes nBytes addr k)).take bus.nLanes)) := by
    rw [slaveBeats_incr, Nat.sub_add_cancel hl]
    refine map_congr_left fun k hk => ?_
    rw [List.mem_range] at hk
    -- the slave's beat does not end behind that of the master
    have he : addr / 2 ^ log2 nBytes * 2 ^ log2 nBytes + k * 2 ^ log2 nBytes +
        2 ^ log2 nBytes ≤ mem.length :=
      calc addr / 2 ^ log2 nBytes * 2 ^ log2 nBytes + k * 2 ^ log2 nBytes +
            2 ^ log2 nBytes
          = addr / 2 ^ log2 nBytes * 2 ^ log2 nBytes + (k + 1) * 2 ^ log2 nBytes := by
            ring
        _ ≤ addr + length * nBytes :=
            add_le_add (Nat.div_mul_le_self _ _) (Nat.mul_le_mul hk hle)
        _ ≤ mem.length := hm
    rw [slaveBeat, if_pos he]
    rfl
  have hla := lanes_eq bus.nLanes hp ha hl
  simp only [read, hr, handleReadReq, hby, hb, Option.bind_eq_bind, Option.bind_some,
    Option.pure_def, map_map, length_map, length_range, hla]
  refine congrArg some (Prod.ext ?_ (Prod.ext ?_ rfl))
  · exact ext_getElem (by simp) (by simp)
  · exact ext_getElem (by simp) (by simp)

variable {nLanes : ℕ}

theorem mod_add_le {a : ℕ} (hl : 0 < nLanes) (hd : nBytes ∣ nLanes) (ha : nBytes ∣ a) :
    nBytes ∣ a % nLanes ∧ a % nLanes + nBytes ≤ nLanes := by
  have hla : nBytes ∣ a % nLanes := (Nat.dvd_mod_iff hd).mpr ha
  refine ⟨hla, ?_⟩
  have hlt := Nat.mod_lt a hl
  obtain ⟨m, hm⟩ := hd
  obtain ⟨r, hr⟩ := hla
  rw [hr, hm] at hlt ⊢
  calc nBytes * r + nBytes = nBytes * (r + 1) := by ring
    _ ≤ nBytes * m := Nat.mul_le_mul_left _ (Nat.lt_of_mul_lt_mul_left hlt)

theorem readsLanes_iff_beats (hl : 0 < bus.nLanes) (hd : nBytes ∣ bus.nLanes) (ha : nBytes ∣ addr) :
    ReadsLanes bus addr length nBytes ↔
      (1 ≤ length ∧ length ≤ 256 ∧ log2 nBytes < 7) ∧
        ∀ k < length, (addr + (k - 1) * nBytes) % bus.nLanes = (addr + k * nBytes) % bus.nLanes ∧
          wordAddr bus.nLanes nBytes addr k + (addr + k * nBytes) % bus.nLanes =
            addr + k * nBytes := by
  have hp : 0 < nBytes := Nat.pos_of_dvd_of_pos hd hl
  have hbe (k : ℕ) : nBytes ∣ addr + k * nBytes := Nat.dvd_add ha (dvd_mul_left _ _)
  by_cases h : 1 ≤ length ∧ length ≤ 256 ∧ log2 nBytes < 7
  · rw [and_iff_right h]
    have hb (k : ℕ) (hk : k < length) := beat_eq_iff (wordAddr bus.nLanes nBytes addr k)
      hp (mod_add_le hl hd (hbe k)).1 (mod_add_le hl hd (hbe k)).2
      (mod_add_le hl hd (hbe (k - 1))).1
      (Nat.add_lt_add_left (Nat.mul_lt_mul_of_pos_right hk hp) addr)
    constructor
    · intro hr k hk
      rw [← hb k hk]
      intro memory hm
      have heq := (read_eq hp ha h memory 0 hm).symm.trans (hr memory 0 hm)
      simp only [Option.some.injEq, Prod.mk.injEq, map_inj_left, List.mem_range] at heq
      exact heq.2.1 k hk
    · intro hri memory id hm
      rw [read_eq hp ha h memory id hm]
      simp only [Option.some.injEq, Prod.mk.injEq, map_inj_left, List.mem_range, true_and, and_true]
      exact fun k hk => (hb k hk).mpr (hri k hk) memory hm
  · refine iff_of_false (fun hr => ?_) fun hri => h hri.1
    have hs := hr (List.replicate (addr + length * nBytes) 0) 0 (by simp)
    rw [read_eq_none h] at hs
    simp at hs

theorem wordAddr_add_mod_iff (hl : 0 < nLanes) (k : ℕ) :
    wordAddr nLanes nBytes addr k + (addr + k * nBytes) % nLanes = addr + k * nBytes ↔
      (addr / 2 ^ log2 nBytes * 2 ^ log2 nBytes + k * 2 ^ log2 nBytes) / nLanes =
        (addr + k * nBytes) / nLanes := by
  rw [wordAddr]
  conv_lhs => rhs; rw [← Nat.div_add_mod' (addr + k * nBytes) nLanes]
  rw [add_right_cancel_iff, Nat.mul_left_inj (ne_of_gt hl)]

theorem first_word_iff {size : ℕ} (hl : 0 < nLanes) :
    addr / size * size / nLanes = addr / nLanes ↔ addr % size ≤ addr % nLanes := by
  have hs := Nat.div_add_mod' addr size
  have hw := Nat.div_add_mod' addr nLanes
  constructor
  · intro h
    have hle : addr / nLanes * nLanes ≤ addr / size * size := by
      rw [← Nat.le_div_iff_mul_le hl, h]
    omega
  · intro h
    refine le_antisymm (Nat.div_le_div_right (Nat.div_mul_le_self _ _)) ?_
    rw [Nat.le_div_iff_mul_le hl]
    omega

theorem forall_beats_iff (hl : 0 < nLanes) (hd : nBytes ∣ nLanes) (ha : nBytes ∣ addr)
    (hlen : 1 ≤ length) :
    (∀ k < length, (addr + (k - 1) * nBytes) % nLanes = (addr + k * nBytes) % nLanes ∧
      wordAddr nLanes nBytes addr k + (addr + k * nBytes) % nLanes = addr + k * nBytes) ↔
      if length = 1 then addr % 2 ^ log2 nBytes ≤ addr % nLanes
      else nBytes = nLanes ∧ 2 ^ log2 nBytes = nBytes := by
  have hp : 0 < nBytes := Nat.pos_of_dvd_of_pos hd hl
  simp only [wordAddr_add_mod_iff hl]
  split
  · rename_i ho
    subst ho
    rw [← first_word_iff hl]
    constructor
    · intro h
      simpa using (h 0 zero_lt_one).2
    · intro h k hk
      obtain rfl : k = 0 := by omega
      simpa using h
  · constructor
    · intro h
      obtain ⟨hla, hw⟩ := h 1 (by omega)
      rw [Nat.sub_self, zero_mul, add_zero, one_mul] at hla
      -- the second beat has the lanes of the first
      have hf : nBytes = nLanes := by
        have hm : addr + nBytes ≡ addr + 0 [MOD nLanes] := hla.symm
        have hz := Nat.ModEq.add_left_cancel' addr hm
        exact Nat.dvd_antisymm hd (Nat.modEq_zero_iff_dvd.mp hz)
      refine ⟨hf, le_antisymm (Nat.log2_self_le (ne_of_gt hp)) ?_⟩
      subst hf
      rw [one_mul, one_mul, Nat.add_div_right _ hp] at hw
      have hle : (addr / nBytes + 1) * nBytes ≤
          addr / 2 ^ log2 nBytes * 2 ^ log2 nBytes + 2 ^ log2 nBytes := by
        rw [← Nat.le_div_iff_mul_le hp, hw]
      rw [add_mul, one_mul, Nat.div_mul_cancel ha] at hle
      have hst := Nat.div_mul_le_self addr (2 ^ log2 nBytes)
      omega
    · rintro ⟨rfl, hs⟩ k -
      rw [hs, Nat.div_mul_cancel ha, Nat.add_mul_mod_self_right, Nat.add_mul_mod_self_right]
      exact ⟨rfl, rfl⟩

/-- **Reading over the bus**: for every bus, every size of beats that divides its width and every
address aligned to it, a burst with incrementing addresses is right exactly if it can be asked for,
and has a single beat, or beats as wide as the bus, whose width is a power of two. -/
theorem readsLanes_iff (hlanes : 0 < bus.nLanes) (hdvd : nBytes ∣ bus.nLanes)
    (haddr : nBytes ∣ addr) :
    ReadsLanes bus addr length nBytes ↔
      (1 ≤ length ∧ length ≤ 256 ∧ Nat.log2 nBytes < 7) ∧
        if length = 1 then addr % 2 ^ Nat.log2 nBytes ≤ addr % bus.nLanes
        else nBytes = bus.nLanes ∧ 2 ^ Nat.log2 nBytes = nBytes := by
  rw [readsLanes_iff_beats hlanes hdvd haddr]
  refine and_congr_right fun h => ?_
  exact forall_beats_iff hlanes hdvd haddr h.1

end Burst

theorem readsLanes_full_width : 0 < 8 ∧ 8 ∣ 8 ∧ 8 ∣ 64 ∧ ReadsLanes ⟨8, true⟩ 64 256 8 :=
  ⟨by decide, by decide, by decide,
    (readsLanes_iff (by decide) (by decide) (by decide)).mpr ⟨by decide, by decide⟩⟩

/-- **A narrow burst**: the second of two beats of two bytes, on four lanes, has the bytes of the
first. -/
theorem narrow_burst_repeats_lanes :
    read ⟨4, false⟩ [1, 2, 3, 4] 0 2 2 .incr 0 = some ([.okay, .okay], [0x0201, 0x0201], 0) ∧
      laneWord 4 [1, 2, 3, 4] (0 + 1 * 2) 2 = 0x04030000 ∧ ¬ ReadsLanes ⟨4, false⟩ 0 2 2 := by
  have hread : read ⟨4, false⟩ [1, 2, 3, 4] 0 2 2 .incr 0 =
      some ([.okay, .okay], [0x0201, 0x0201], 0) := by decide
  refine ⟨hread, by decide, fun h => ?_⟩
  exact absurd (hread.symm.trans (h [1, 2, 3, 4] 0 (by decide))) (by decide)

end Tapasco.Amba
