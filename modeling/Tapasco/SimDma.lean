import Tapasco.AxiRead
import Tapasco.DirectDma
import Tapasco.StatusImage

/-!
# DMA in the Simulation

`SimDMA` in `dma.rs` copies data to and from a simulated device. It sends requests to a server
in the simulator (`sim_client.rs`, `SimServer.py`). The device memory is an array of this
server, where bytes are read and written one by one. Platform memory, such as the local memory
of a processing element, is behind a bus of four byte lanes: the data is sent as 32-bit words,
in bursts of up to 256 words, by the master in `amba.py`.

It is compared with `DirectDMA` on a mapping that shows the same memory.

Both memories of the server are taken to span the range of the DMA. A request is served before
the next one is sent, as it is unless the simulation is started with `UNSAFE_SIM`, and the
messages in between are taken to arrive.
-/

open ByteMem HexText Word64 List

namespace Tapasco.Sim

/-! ### The bus -/

/-- The address of the word that contains an address. -/
def alignAddr (addr : ℕ) : ℕ :=
  addr / 4 * 4

/-- One beat of a write: the lanes from `lower` on are enabled. -/
def writeBeat (m : ByteMem) (addr lower word : ℕ) : ByteMem :=
  m.writeBytes (addr + lower) ((leBytes 4 word).drop lower)

/-- The lowest lane of a beat. Only the first one starts within a word. -/
def lowerLane (addr beat : ℕ) : ℕ :=
  if beat = 0 then addr % 4 else 0

/-- Model of `AXI4Master.write` with incrementing addresses. -/
def axiWrite (m : ByteMem) (addr : ℕ) (data : List ℕ) : ByteMem :=
  data.zipIdx.foldl
    (fun m beat => writeBeat m (alignAddr addr + 4 * beat.2) (lowerLane addr beat.2) beat.1) m

/-- `AXI4Master.read` with incrementing addresses, from a bus of four lanes: see
`read_eq_axiRead`. -/
def axiRead (m : ByteMem) (addr length : ℕ) : List ℕ :=
  (List.range length).map fun beat =>
    Amba.applyLanes (ofLeBytes (m.readBytes (alignAddr addr + 4 * beat) 4)) (lowerLane addr beat) 3
      .okay

/-! ### The server -/

structure Memories where
  memory : ByteMem
  platform : ByteMem

/-- Model of `_read_memory`. -/
def serverReadMemory (m : ByteMem) (addr length : ℕ) : List ℕ :=
  (m.readBytes addr length).map BitVec.toNat

/-- Model of `_write_memory`. -/
def serverWriteMemory (m : ByteMem) (addr : ℕ) (data : List ℕ) : ByteMem :=
  data.zipIdx.foldl (fun m v => m.writeBytes (addr + v.2) ((leBytes 4 v.1).take 1)) m

def readPlatformLoop (m : ByteMem) (addr numBytes bytesLeft : ℕ) : List Byte :=
  if bytesLeft = 0 then []
  else
    let burstLength := (min bytesLeft (256 * 4) + 3) / 4
    let validBytes := min bytesLeft (burstLength * 4)
    let newdata := axiRead m (addr + numBytes - bytesLeft) burstLength
    (newdata.flatMap (leBytes 4)).take validBytes ++
      readPlatformLoop m addr numBytes (bytesLeft - validBytes)
termination_by bytesLeft
decreasing_by omega

/-- Model of `_read_platform`. -/
def serverReadPlatform (m : ByteMem) (addr numBytes : ℕ) : List ℕ :=
  (readPlatformLoop m addr numBytes numBytes).map BitVec.toNat

/-- Model of `_write_platform`. -/
def serverWritePlatform (m : ByteMem) (addr : ℕ) (value : List ℕ) (isSingle32 : Bool) : ByteMem :=
  let transformedValue :=
    if isSingle32 then value
    else value.flatMap fun val =>
      [ofLeBytes ((leBytes 8 val).take 4), ofLeBytes ((leBytes 8 val).drop 4)]
  (chunks 256 transformedValue).zipIdx.foldl
    (fun m burst => axiWrite m (addr + 4 * 256 * burst.2) burst.1) m

/-! ### The client -/

/-- The number of bytes in a message. -/
def maxChunkSize : ℕ :=
  2097152

/-- Errors, and the panic of `copy_from_slice` for slices of different length. -/
inductive Fault where
  | outOfRange (ptr stop size : ℕ)
  | wrongResponseLength
  | lengthMismatch

def readMemoryLoop (m : ByteMem) (addr bytesLeft currOffset : ℕ) : List ℕ :=
  if bytesLeft = 0 then []
  else
    let bytesToRead := min bytesLeft maxChunkSize
    serverReadMemory m (addr + currOffset * maxChunkSize) bytesToRead ++
      readMemoryLoop m addr (bytesLeft - bytesToRead) (currOffset + 1)
termination_by bytesLeft
decreasing_by
  rw [maxChunkSize]
  omega

/-- Model of `SimClient::read_memory`. -/
def clientReadMemory (m : ByteMem) (addr length : ℕ) : List ℕ :=
  readMemoryLoop m addr length 0

/-- Model of `SimClient::write_memory`. -/
def clientWriteMemory (m : ByteMem) (addr : ℕ) (data : List ℕ) : ByteMem :=
  (chunks maxChunkSize data).zipIdx.foldl
    (fun m chunk => serverWriteMemory m (addr + chunk.2 * maxChunkSize) chunk.1) m

/-- Model of `SimClient::read_platform`. The number of bytes in the request has 32 bits. -/
def clientReadPlatform (m : ByteMem) (addr numBytes : ℕ) : Except Fault (List ℕ) :=
  let range := serverReadPlatform m addr numBytes
  if range.length % 2 ^ 32 ≠ numBytes then .error .wrongResponseLength else .ok range

/-! ### The DMA -/

/-- `align_to::<u32>()`: the bytes before the first word, the words, and the rest, for a slice
at an address of the host. -/
def alignTo (hostAddr : ℕ) (data : List Byte) : List Byte × List ℕ × List Byte :=
  let offset := (4 - hostAddr % 4) % 4
  if data.length < offset then (data, [], [])
  else
    let words := (data.length - offset) / 4
    (data.take offset, (chunks 4 ((data.drop offset).take (4 * words))).map ofLeBytes,
      data.drop (offset + 4 * words))

/-- One memory of the simulation, as the runtime sees it. -/
structure SimDMA where
  offset : ℕ
  size : ℕ
  fits : offset + size < 2 ^ 64
  isPlatform : Bool

def SimDMA.target (d : SimDMA) (ms : Memories) : ByteMem :=
  if d.isPlatform then ms.platform else ms.memory

def SimDMA.setTarget (d : SimDMA) (ms : Memories) (m : ByteMem) : Memories :=
  if d.isPlatform then { ms with platform := m } else { ms with memory := m }

/-- Model of `SimDMA::copy_to`, for data at an address of the host. -/
def SimDMA.copyTo (d : SimDMA) (hostAddr : ℕ) (data : List Byte) (ptr : ℕ) (ms : Memories) :
    Except Fault Memories :=
  let stop := wrappingAdd ptr data.length
  if stop > d.size then .error (.outOfRange ptr stop d.size)
  else if d.isPlatform then
    let ints := (alignTo hostAddr data).2.1
    .ok { ms with
      platform := serverWritePlatform ms.platform (wrappingAdd d.offset ptr) ints true }
  else
    .ok { ms with
      memory := clientWriteMemory ms.memory (wrappingAdd d.offset ptr) (data.map BitVec.toNat) }

/-- `copy_from_slice`, into a slice of the given length, from values of which the lowest byte is
taken. -/
def copyFromSlice (length : ℕ) (values : List ℕ) : Except Fault (List Byte) :=
  if values.length = length then .ok (values.map (BitVec.ofNat 8)) else .error .lengthMismatch

/-- Model of `SimDMA::copy_from`, into a slice of the given length. -/
def SimDMA.copyFrom (d : SimDMA) (ptr length : ℕ) (ms : Memories) : Except Fault (List Byte) := do
  let stop := wrappingAdd ptr length
  if stop > d.size then .error (.outOfRange ptr stop d.size)
  else if d.isPlatform then
    let response ← clientReadPlatform ms.platform (wrappingAdd d.offset ptr) (length % 2 ^ 32)
    copyFromSlice length response
  else
    copyFromSlice length (clientReadMemory ms.memory (wrappingAdd d.offset ptr) length)

/-! ### Device memory -/

theorem foldl_writeBytes_singleton (l : List Byte) (a k : ℕ) (m : ByteMem) :
    (l.zipIdx k).foldl (fun m b => m.writeBytes (a + b.2) [b.1]) m = m.writeBytes (a + k) l := by
  induction l generalizing k m with
  | nil => exact (writeBytes_nil m (a + k)).symm
  | cons b l ih =>
    rw [zipIdx_cons, foldl_cons, ih, ← add_assoc]
    exact (writeBytes_append m (a + k) [b] l).symm

theorem serverWriteMemory_eq (m : ByteMem) (addr : ℕ) (data : List ℕ) :
    serverWriteMemory m addr data = m.writeBytes addr (data.map (BitVec.ofNat 8)) := by
  have h := foldl_writeBytes_singleton (data.map (BitVec.ofNat 8)) addr 0 m
  rw [zipIdx_map, foldl_map, add_zero] at h
  exact h

/-- **Writing device memory** does not depend on the size of the messages. -/
theorem clientWriteMemory_eq (m : ByteMem) (addr : ℕ) (data : List Byte) :
    clientWriteMemory m addr (data.map BitVec.toNat) = m.writeBytes addr data := by
  have ha (m : ByteMem) (a : ℕ) (l k : List ℕ) : serverWriteMemory m a (l ++ k) =
      serverWriteMemory (serverWriteMemory m a l) (a + 1 * l.length) k := by
    simp only [serverWriteMemory_eq, map_append, writeBytes_append, length_map, one_mul]
  have h := foldl_zipIdx_chunks (fun _ _ => rfl) ha (n := maxChunkSize) (by decide)
    (data.map BitVec.toNat) 0 addr m
  simp only [one_mul, mul_comm maxChunkSize, zero_mul, add_zero] at h
  rw [clientWriteMemory, h, serverWriteMemory_eq, map_map]
  simp [Function.comp_def]

theorem readMemoryLoop_eq (m : ByteMem) (addr bl currOffset : ℕ) :
    readMemoryLoop m addr bl currOffset =
      (m.readBytes (addr + currOffset * maxChunkSize) bl).map BitVec.toNat := by
  induction bl using Nat.strongRecOn generalizing currOffset with
  | ind bl ih =>
    rw [readMemoryLoop]
    split
    · rename_i hz
      rw [hz]
      rfl
    · dsimp only
      rcases le_total bl maxChunkSize with hle | hle
      · rw [min_eq_left hle, Nat.sub_self, ih 0 (by omega), serverReadMemory]
        exact append_nil _
      obtain ⟨rest, rfl⟩ := Nat.exists_eq_add_of_le hle
      have hp : 0 < maxChunkSize := by decide
      rw [min_eq_right hle, Nat.add_sub_cancel_left, ih rest (by omega),
        serverReadMemory, readBytes_add, map_append, add_mul, one_mul, add_assoc]

theorem clientReadMemory_eq (m : ByteMem) (addr length : ℕ) :
    clientReadMemory m addr length = (m.readBytes addr length).map BitVec.toNat := by
  rw [clientReadMemory, readMemoryLoop_eq, zero_mul, add_zero]

/-! ### Platform memory -/

theorem length_flatMap_leBytes (l : List ℕ) : (l.flatMap (leBytes 4)).length = 4 * l.length := by
  rw [length_flatMap]
  simp [length_leBytes, mul_comm]

variable {addr : ℕ} {data : List Byte}

theorem alignAddr_of_dvd (h : 4 ∣ addr) : alignAddr addr = addr :=
  Nat.div_mul_cancel h

theorem alignAddr_le (addr : ℕ) : alignAddr addr ≤ addr :=
  Nat.div_mul_le_self addr 4

theorem lowerLane_of_dvd (h : 4 ∣ addr) (beat : ℕ) : lowerLane addr beat = 0 := by
  rw [lowerLane, Nat.mod_eq_zero_of_dvd h, ite_self]

theorem axiWrite_eq (h : 4 ∣ addr) (m : ByteMem) (data : List ℕ) :
    axiWrite m addr data = m.writeBytes addr (data.flatMap (leBytes 4)) := by
  have hb (k : ℕ) (m : ByteMem) : (data.zipIdx k).foldl
      (fun m beat => writeBeat m (addr + 4 * beat.2) 0 beat.1) m =
        m.writeBytes (addr + 4 * k) (data.flatMap (leBytes 4)) := by
    induction data generalizing k m with
    | nil => exact (writeBytes_nil m _).symm
    | cons w data ih =>
      rw [zipIdx_cons, foldl_cons, ih, flatMap_cons, writeBytes_append, length_leBytes]
      rfl
  rw [axiWrite, alignAddr_of_dvd h]
  simp only [lowerLane_of_dvd h]
  exact hb 0 m

theorem serverWritePlatform_eq (h : 4 ∣ addr) (m : ByteMem) (v : List ℕ) :
    serverWritePlatform m addr v true = m.writeBytes addr (v.flatMap (leBytes 4)) := by
  let write (m : ByteMem) (a : ℕ) (l : List ℕ) : ByteMem := writeBytes m a (l.flatMap (leBytes 4))
  have hn (m : ByteMem) (a : ℕ) : write m a [] = m := writeBytes_nil m a
  have hap (m : ByteMem) (a : ℕ) (l k : List ℕ) :
      write m a (l ++ k) = write (write m a l) (a + 4 * l.length) k := by
    simp only [write, flatMap_append, writeBytes_append, length_flatMap_leBytes]
  have hb := foldl_zipIdx_chunks hn hap (n := 256) (by decide) v 0 addr m
  have ha (m : ByteMem) (burst : List ℕ × ℕ) : axiWrite m (addr + 4 * 256 * burst.2) burst.1 =
      m.writeBytes (addr + 4 * 256 * burst.2) (burst.1.flatMap (leBytes 4)) :=
    axiWrite_eq (by omega) m burst.1
  rw [serverWritePlatform, if_pos rfl]
  simp only [ha]
  exact hb

theorem axiWrite_of_le {m : ByteMem} {x : ℕ} {data : List ℕ}
    (h : alignAddr addr + 4 * data.length ≤ x) : axiWrite m addr data x = m x := by
  have hb (l : List ℕ) (k : ℕ) (m : ByteMem) (hk : alignAddr addr + 4 * (k + l.length) ≤ x) :
      (l.zipIdx k).foldl (fun m beat =>
        writeBeat m (alignAddr addr + 4 * beat.2) (lowerLane addr beat.2) beat.1) m x = m x := by
    induction l generalizing k m with
    | nil => rfl
    | cons w l ih =>
      rw [length_cons] at hk
      rw [zipIdx_cons, foldl_cons, ih (k + 1) _ (by omega)]
      refine writeBytes_of_outside (.inr ?_)
      have hl : lowerLane addr k < 4 := by
        rw [lowerLane]
        split <;> omega
      rw [length_drop, length_leBytes]
      dsimp only
      omega
  exact hb data 0 m (by omega)

/-- **What is not written**: a request does not reach further than its number of words behind the
word of its address. -/
theorem serverWritePlatform_of_le {m : ByteMem} {x : ℕ} {v : List ℕ}
    (h : alignAddr addr + 4 * v.length ≤ x) : serverWritePlatform m addr v true x = m x := by
  have hb (l : List ℕ) (i : ℕ) (m : ByteMem)
      (hi : alignAddr addr + 4 * (256 * i + l.length) ≤ x) :
      ((chunks 256 l).zipIdx i).foldl
        (fun m burst => axiWrite m (addr + 4 * 256 * burst.2) burst.1) m x = m x := by
    induction l using chunks_induction (n := 256) (by decide) generalizing i m with
    | nil => rw [chunks_nil]; rfl
    | cons l hl ih =>
      have ha : alignAddr (addr + 4 * 256 * i) = alignAddr addr + 4 * 256 * i := by
        rw [alignAddr, alignAddr]
        omega
      have hlen : (l.take 256).length ≤ l.length := length_take_le' _ _
      rw [chunks_of_ne_nil (by decide) hl, zipIdx_cons, foldl_cons]
      have hf : axiWrite m (addr + 4 * 256 * i) (l.take 256) x = m x :=
        axiWrite_of_le (by rw [ha]; omega)
      by_cases hs : l.length ≤ 256
      · rw [drop_eq_nil_iff.mpr hs, chunks_nil]
        exact hf
      · rw [ih (i + 1) _ (by rw [length_drop]; omega)]
        exact hf
  rw [serverWritePlatform, if_pos rfl]
  exact hb v 0 m (by omega)

theorem applyLanes_word {bs : List Byte} (h : bs.length = 4) :
    Amba.applyLanes (ofLeBytes bs) 0 3 .okay = ofLeBytes bs := by
  refine Nat.eq_of_testBit_eq fun j => ?_
  rw [Amba.testBit_applyLanes, Amba.testBit_ofLeBytes]
  by_cases hj : j / 8 ≤ 3
  · simp [hj]
  · rw [getD_eq_default _ _ (by omega)]
    simp

theorem axiRead_eq (h : 4 ∣ addr) (m : ByteMem) (length : ℕ) :
    (axiRead m addr length).flatMap (leBytes 4) = m.readBytes addr (4 * length) := by
  induction length with
  | zero => rfl
  | succ length ih =>
    have hw : leBytes 4 (ofLeBytes (m.readBytes (addr + 4 * length) 4)) =
        m.readBytes (addr + 4 * length) 4 := by
      rw [leBytes_ofLeBytes (length_readBytes _ _ _).le, length_readBytes]
      exact append_nil _
    rw [axiRead, range_succ, map_append, flatMap_append, ← axiRead, ih,
      Nat.mul_succ, readBytes_add, alignAddr_of_dvd h, map_singleton,
      lowerLane_of_dvd h, flatMap_singleton, applyLanes_word (length_readBytes _ _ _), hw]

/-- **The bursts of the server** are those of the master for buses of every width. -/
theorem read_eq_axiRead (hasId : Bool) (memory : List Byte) (addr id : ℕ) {length : ℕ}
    (hpos : 1 ≤ length) (hle : length ≤ 256) (hm : alignAddr addr + 4 * length ≤ memory.length) :
    Amba.read ⟨4, hasId⟩ memory addr length 4 .incr id =
      some (List.replicate length .okay, axiRead (Amba.byteAt memory) addr length,
        if hasId then id else 0) := by
  have hreq : Amba.arChannel ⟨4, hasId⟩ id (addr / 4 * 4) length 4 .incr =
      some ⟨if hasId then id else 0, alignAddr addr, length - 1, 2, .incr⟩ :=
    if_pos ⟨hpos, by omega, by decide⟩
  have hbeats : Amba.slaveBeats 4 memory 4 .incr (length - 1 + 1) (alignAddr addr / 4 * 4) =
      (List.range length).map fun k =>
        (.okay, ofLeBytes (readBytes (Amba.byteAt memory) (alignAddr addr + 4 * k) 4)) := by
    rw [Amba.slaveBeats_incr, Nat.sub_add_cancel hpos]
    refine map_congr_left fun k hk => ?_
    rw [List.mem_range] at hk
    have hword : (alignAddr addr / 4 * 4 + k * 4) / 4 * 4 = alignAddr addr + 4 * k := by
      rw [alignAddr]
      omega
    rw [Amba.slaveBeat, if_pos (by rw [alignAddr] at *; omega), hword]
    refine congrArg (fun l => (Amba.XResp.okay, ofLeBytes l)) ?_
    refine ext_getElem (by simp [length_readBytes]; omega) fun i hi hi' => ?_
    rw [length_readBytes] at hi'
    simp only [getElem_take, getElem_drop, readBytes, getElem_map, getElem_range, Amba.byteAt]
    exact (getD_eq_getElem memory 0 (by omega)).symm
  have hlanes : (Amba.lowerLane0 addr 4 :: (Amba.computeLanes (addr / 4 * 4) 4 length 4).1).zip
      (Amba.upperLane0 addr (addr / 4 * 4) 4 4 ::
        (Amba.computeLanes (addr / 4 * 4) 4 length 4).2) =
      (List.range length).map fun k => (lowerLane addr k, 3) := by
    obtain ⟨n, rfl⟩ := Nat.exists_eq_add_of_le' hpos
    rw [range_succ_eq_map, map_cons, zip_cons_cons]
    congr 1
    · rw [Amba.lowerLane0, Amba.upperLane0, lowerLane, if_pos rfl]
      exact Prod.ext (by dsimp only; omega) (by dsimp only; omega)
    · simp only [Amba.computeLanes, Amba.lowerLaneN, Amba.upperLaneN, map_map, Nat.add_sub_cancel]
      refine ext_getElem (by simp) fun k hk hk' => ?_
      simp [lowerLane]
      omega
  simp only [Amba.read, hreq, Amba.handleReadReq, show Amba.sizeToBytesInBeat 2 = some 4 from rfl,
    hbeats, Option.bind_eq_bind, Option.bind_some, Option.pure_def, map_map, length_map,
    length_range, hlanes]
  refine congrArg some (Prod.ext ?_ (Prod.ext ?_ rfl))
  · exact ext_getElem (by simp) (by simp)
  · exact ext_getElem (by simp [axiRead]) (by simp [axiRead])

theorem length_axiRead (m : ByteMem) (addr length : ℕ) :
    (axiRead m addr length).length = length := by
  rw [axiRead, length_map, length_range]

theorem length_readPlatformLoop (m : ByteMem) (addr nb bl : ℕ) :
    (readPlatformLoop m addr nb bl).length = bl := by
  induction bl using Nat.strongRecOn with
  | ind bl ih =>
    rw [readPlatformLoop]
    split
    · rename_i hz
      exact hz.symm
    · rw [length_append, ih _ (by omega), length_take, length_flatMap_leBytes, length_axiRead]
      omega

theorem readPlatformLoop_eq {m : ByteMem} {nb bl : ℕ} (hle : bl ≤ nb) (h : 4 ∣ addr + nb - bl) :
    readPlatformLoop m addr nb bl = m.readBytes (addr + nb - bl) bl := by
  induction bl using Nat.strongRecOn with
  | ind bl ih =>
    rw [readPlatformLoop]
    split
    · rename_i hz
      rw [hz]
      rfl
    · dsimp only
      rw [axiRead_eq h]
      rcases le_total bl 1024 with hs | hl
      · -- the last burst may read more than it returns
        have hv : min bl ((min bl (256 * 4) + 3) / 4 * 4) = bl := by
          omega
        rw [hv, take_readBytes _ _ (by omega), Nat.sub_self, readPlatformLoop, if_pos rfl,
          append_nil]
      · obtain ⟨rest, rfl⟩ := Nat.exists_eq_add_of_le hl
        have hv : min (1024 + rest) ((min (1024 + rest) (256 * 4) + 3) / 4 * 4) = 1024 := by
          omega
        have hb : 4 * ((min (1024 + rest) (256 * 4) + 3) / 4) = 1024 := by omega
        have hn : addr + nb - rest = addr + nb - (1024 + rest) + 1024 := by omega
        rw [hv, hb, take_readBytes _ _ (le_refl 1024), Nat.add_sub_cancel_left,
          ih rest (by omega) (by omega) (by omega), hn, readBytes_add]

theorem serverReadPlatform_eq (h : 4 ∣ addr) (m : ByteMem) (nb : ℕ) :
    serverReadPlatform m addr nb = (m.readBytes addr nb).map BitVec.toNat := by
  have hs : addr + nb - nb = addr := Nat.add_sub_cancel addr nb
  rw [serverReadPlatform, readPlatformLoop_eq (le_refl nb) (by rwa [hs]), hs]

/-! ### Words of the host -/

theorem flatMap_ofLeBytes_chunks {l : List Byte} (h : 4 ∣ l.length) :
    ((chunks 4 l).map ofLeBytes).flatMap (leBytes 4) = l := by
  induction l using chunks_induction (n := 4) (by decide) with
  | nil => rw [chunks_nil]; rfl
  | cons l hl ih =>
    have hp := length_pos_of_ne_nil hl
    have hlen : (l.take 4).length = 4 := by
      rw [length_take]
      omega
    rw [chunks_of_ne_nil (by decide) hl, map_cons, flatMap_cons,
      ih (by rw [length_drop]; omega), leBytes_ofLeBytes hlen.le, hlen, Nat.sub_self,
      replicate_zero, append_nil, take_append_drop]

theorem alignTo_of_le {hostAddr : ℕ} (h : (4 - hostAddr % 4) % 4 ≤ data.length) :
    (alignTo hostAddr data).2.1.flatMap (leBytes 4) =
      (data.drop ((4 - hostAddr % 4) % 4)).take
        (4 * ((data.length - (4 - hostAddr % 4) % 4) / 4)) := by
  rw [alignTo, if_neg (by omega)]
  refine flatMap_ofLeBytes_chunks ?_
  rw [length_take, length_drop, min_eq_left (by omega)]
  exact dvd_mul_right 4 _

theorem alignTo_of_dvd {hostAddr : ℕ} (ha : hostAddr % 4 = 0) (hl : data.length % 4 = 0) :
    (alignTo hostAddr data).2.1.flatMap (leBytes 4) = data := by
  have ho : (4 - hostAddr % 4) % 4 = 0 := by omega
  rw [alignTo_of_le (by omega), ho, drop_zero, take_of_length_le (by omega)]

/-- The words have no byte from before the first aligned address. -/
theorem length_alignTo_le (hostAddr : ℕ) (data : List Byte) :
    4 * (alignTo hostAddr data).2.1.length ≤ data.length - (4 - hostAddr % 4) % 4 := by
  by_cases ho : (4 - hostAddr % 4) % 4 ≤ data.length
  · have hl := congrArg List.length (alignTo_of_le ho)
    rw [length_flatMap_leBytes, length_take, length_drop] at hl
    omega
  · rw [alignTo, if_pos (by omega)]
    exact Nat.zero_le _

theorem dvd_of_length_alignTo {hostAddr : ℕ} (hne : data ≠ [])
    (h : data.length ≤ 4 * (alignTo hostAddr data).2.1.length) :
    hostAddr % 4 = 0 ∧ data.length % 4 = 0 := by
  have hp := length_pos_of_ne_nil hne
  have hl := length_alignTo_le hostAddr data
  omega

/-! ### `DirectDMA` -/

section

variable (d : SimDMA) {ptr length : ℕ} (h : ptr + length ≤ d.size)
include h

theorem SimDMA.stop_eq : wrappingAdd ptr length = ptr + length :=
  wrappingAdd_of_lt (by have := d.fits; omega)

theorem SimDMA.addr_eq : wrappingAdd d.offset ptr = d.offset + ptr :=
  wrappingAdd_of_lt (by have := d.fits; omega)

end

/-- A `DirectDMA` for the same window, whose mapping shows the memory of the server in the memory of
the process. -/
structure Shows (d : SimDMA) (ms : Memories) (e : DirectDMA) (m : ByteMem) : Prop where
  offset : e.offset = d.offset
  size : e.size = d.size
  mapped : d.offset + d.size ≤ e.memory.len
  bytes : ∀ a < e.memory.len, m (e.memory.base + a) = d.target ms a

/-! ### `SimDMA` -/

/-- What is expected of `SimDMA`: it stores exactly the data at its address, returns exactly the
bytes that are stored there, and does what `DirectDMA` does, on every device. -/
structure Refines (d : SimDMA) (hostAddr ptr length : ℕ) : Prop where
  stores : ∀ (data : List Byte) (ms : Memories), data.length = length →
    d.copyTo hostAddr data ptr ms =
      .ok (d.setTarget ms ((d.target ms).writeBytes (d.offset + ptr) data))
  returns : ∀ ms : Memories,
    d.copyFrom ptr length ms = .ok ((d.target ms).readBytes (d.offset + ptr) length)
  stores_direct : ∀ (data : List Byte) (ms : Memories) (e : DirectDMA) (m : ByteMem),
    data.length = length → Shows d ms e m →
    ∃ ms' m', d.copyTo hostAddr data ptr ms = .ok ms' ∧ e.copyTo data ptr m = (.ok ⟨⟩, m') ∧
      Shows d ms' e m'
  returns_direct : ∀ (ms : Memories) (e : DirectDMA) (m : ByteMem), Shows d ms e m →
    ∃ l, d.copyFrom ptr length ms = .ok l ∧ e.copyFrom ptr length m = (.ok l, m)

/-- Requests that are served right: those to device memory, and those to platform memory with whole
words at word addresses on both sides, whose length has 32 bits. -/
def Supported (d : SimDMA) (hostAddr ptr length : ℕ) : Prop :=
  d.isPlatform = false ∨ length = 0 ∨
    ((d.offset + ptr) % 4 = 0 ∧ length % 4 = 0 ∧ hostAddr % 4 = 0 ∧ length < 2 ^ 32)

theorem SimDMA.target_setTarget (d : SimDMA) (ms : Memories) (m : ByteMem) :
    d.target (d.setTarget ms m) = m := by
  rw [SimDMA.target, SimDMA.setTarget]
  split <;> rfl

theorem copyFromSlice_map_toNat (l : List Byte) :
    copyFromSlice l.length (l.map BitVec.toNat) = .ok l := by
  rw [copyFromSlice, if_pos (length_map _), map_map]
  simp [Function.comp_def]

section SimDMA

variable {d : SimDMA} {hostAddr ptr length : ℕ}

theorem Shows.copyTo {ms : Memories} {e : DirectDMA} {m : ByteMem} (hs : Shows d ms e m)
    {data : List Byte} (h : ptr + data.length ≤ d.size) :
    ∃ m', e.copyTo data ptr m = (.ok ⟨⟩, m') ∧
      Shows d (d.setTarget ms ((d.target ms).writeBytes (d.offset + ptr) data)) e m' := by
  have hfits := e.memory.fits
  have htarget : e.target ptr = e.memory.base + (d.offset + ptr) := by
    rw [DirectDMA.target, hs.offset, d.addr_eq h]
    exact wrappingAdd_of_lt (by have := hs.mapped; omega)
  refine ⟨m.writeBytes (e.memory.base + (d.offset + ptr)) data, ?_,
    ⟨hs.offset, hs.size, hs.mapped, fun a ha => ?_⟩⟩
  · rw [DirectDMA.copyTo_eq, d.stop_eq h, hs.size, if_neg (not_lt.mpr h), htarget]
  · rw [d.target_setTarget, writeBytes, writeBytes, hs.bytes a ha, Nat.add_sub_add_left]
    simp only [Nat.add_le_add_iff_left]

theorem Shows.copyFrom {ms : Memories} {e : DirectDMA} {m : ByteMem} (hs : Shows d ms e m)
    (h : ptr + length ≤ d.size) :
    e.copyFrom ptr length m = (.ok ((d.target ms).readBytes (d.offset + ptr) length), m) := by
  have hmapped := hs.mapped
  rw [DirectDMA.copyFrom_eq _ _ (by have := d.fits; omega), d.stop_eq h, hs.size, hs.offset,
    d.addr_eq h, if_neg (not_lt.mpr h), if_pos (by omega), readBytes, readBytes]
  refine congrArg (fun l => (Outcome.ok l, m)) (map_congr_left fun i hi => ?_)
  rw [List.mem_range] at hi
  rw [add_assoc]
  exact hs.bytes _ (by omega)

theorem refines_of (h : ptr + length ≤ d.size)
    (hs : ∀ (data : List Byte) (ms : Memories), data.length = length →
      d.copyTo hostAddr data ptr ms =
        .ok (d.setTarget ms ((d.target ms).writeBytes (d.offset + ptr) data)))
    (hr : ∀ ms : Memories,
      d.copyFrom ptr length ms = .ok ((d.target ms).readBytes (d.offset + ptr) length)) :
    Refines d hostAddr ptr length where
  stores := hs
  returns := hr
  stores_direct data ms e m hl hshows := by
    obtain ⟨m', hcopy, hshows'⟩ := hshows.copyTo (hl ▸ h)
    exact ⟨_, m', hs data ms hl, hcopy, hshows'⟩
  returns_direct ms e m hshows := ⟨_, hr ms, hshows.copyFrom h⟩

theorem copyTo_memory (hm : d.isPlatform = false) {data : List Byte}
    (h : ptr + data.length ≤ d.size) (ms : Memories) : d.copyTo hostAddr data ptr ms =
      .ok (d.setTarget ms ((d.target ms).writeBytes (d.offset + ptr) data)) := by
  simp only [SimDMA.copyTo, SimDMA.setTarget, SimDMA.target, hm, d.stop_eq h,
    d.addr_eq h, if_neg (not_lt.mpr h), clientWriteMemory_eq, Bool.false_eq_true, if_false]

theorem copyFrom_memory (hm : d.isPlatform = false) (h : ptr + length ≤ d.size) (ms : Memories) :
    d.copyFrom ptr length ms = .ok ((d.target ms).readBytes (d.offset + ptr) length) := by
  have hs := copyFromSlice_map_toNat (ms.memory.readBytes (d.offset + ptr) length)
  rw [length_readBytes] at hs
  simp only [SimDMA.copyFrom, SimDMA.target, hm, d.stop_eq h,
    d.addr_eq h, if_neg (not_lt.mpr h), clientReadMemory_eq, Bool.false_eq_true, if_false, hs]

theorem copyTo_platform (hp : d.isPlatform = true) {data : List Byte}
    (h : ptr + data.length ≤ d.size) (ms : Memories) : d.copyTo hostAddr data ptr ms =
      .ok (d.setTarget ms (serverWritePlatform (d.target ms) (d.offset + ptr)
        (alignTo hostAddr data).2.1 true)) := by
  simp only [SimDMA.copyTo, SimDMA.setTarget, SimDMA.target, hp, d.stop_eq h,
    d.addr_eq h, if_neg (not_lt.mpr h), if_true]

theorem copyFrom_platform (hp : d.isPlatform = true) (h : ptr + length ≤ d.size)
    (ms : Memories) : d.copyFrom ptr length ms =
      copyFromSlice length (serverReadPlatform (d.target ms) (d.offset + ptr)
        (length % 2 ^ 32)) := by
  have hl : (serverReadPlatform ms.platform (d.offset + ptr) (length % 2 ^ 32)).length % 2 ^ 32 =
      length % 2 ^ 32 := by
    rw [serverReadPlatform, length_map, length_readPlatformLoop, Nat.mod_mod]
  simp only [SimDMA.copyFrom, SimDMA.target, hp, d.stop_eq h, d.addr_eq h,
    if_neg (not_lt.mpr h), clientReadPlatform, hl, ne_eq, not_true_eq_false, if_false, if_true]
  rfl

theorem refines_platform_zero (hp : d.isPlatform = true) (h : ptr ≤ d.size) :
    Refines d hostAddr ptr 0 := by
  refine refines_of h (fun data ms hl => ?_) fun ms => ?_
  · obtain rfl := length_eq_zero_iff.mp hl
    rw [copyTo_platform hp h, writeBytes_nil]
    have hi : (alignTo hostAddr []).2.1 = [] := by
      have hle := length_alignTo_le hostAddr []
      rw [length_nil] at hle
      exact length_eq_zero_iff.mp (by omega)
    rw [hi, serverWritePlatform, if_pos rfl, chunks_nil]
    rfl
  · rw [copyFrom_platform hp h, serverReadPlatform, readPlatformLoop, if_pos (Nat.zero_mod _)]
    rfl

theorem refines_platform_words (hp : d.isPlatform = true)
    (h : ptr + length ≤ d.size) (ha : (d.offset + ptr) % 4 = 0) (hl : length % 4 = 0)
    (hh : hostAddr % 4 = 0) (hlt : length < 2 ^ 32) : Refines d hostAddr ptr length := by
  have hd : 4 ∣ d.offset + ptr := Nat.dvd_of_mod_eq_zero ha
  refine refines_of h (fun data ms hda => ?_) fun ms => ?_
  · subst hda
    rw [copyTo_platform hp h, serverWritePlatform_eq hd, alignTo_of_dvd hh hl]
  · have hs := copyFromSlice_map_toNat ((d.target ms).readBytes (d.offset + ptr) length)
    rw [length_readBytes] at hs
    rw [copyFrom_platform hp h, Nat.mod_eq_of_lt hlt, serverReadPlatform_eq hd, hs]

theorem words_of_stores (hpl : d.isPlatform = true) (h : ptr + length ≤ d.size) (hp : 0 < length)
    (hs : ∀ (data : List Byte) (ms : Memories), data.length = length →
      d.copyTo hostAddr data ptr ms =
        .ok (d.setTarget ms ((d.target ms).writeBytes (d.offset + ptr) data))) :
    (d.offset + ptr) % 4 = 0 ∧ length % 4 = 0 ∧ hostAddr % 4 = 0 := by
  -- ones, in a memory of zeros
  obtain ⟨data, hda⟩ : ∃ data : List Byte, data = List.replicate length 1 := ⟨_, rfl⟩
  have hl : data.length = length := by rw [hda, length_replicate]
  have heq := hs data ⟨fun _ => 0, fun _ => 0⟩ hl
  rw [copyTo_platform hpl (by rw [hl]; exact h)] at heq
  have hm := congrArg d.target (Except.ok.inj heq)
  rw [d.target_setTarget, d.target_setTarget] at hm
  have hla := congrFun hm (d.offset + ptr + (length - 1))
  have ho : (d.target ⟨fun _ => 0, fun _ => 0⟩).writeBytes (d.offset + ptr) data
      (d.offset + ptr + (length - 1)) = 1 := by
    rw [writeBytes, if_pos (Nat.le_add_right _ _), Nat.add_sub_cancel_left, hda,
      getD_eq_getElem?_getD, getElem?_replicate, if_pos (by omega)]
    rfl
  have hz : d.target ⟨fun _ => 0, fun _ => 0⟩ (d.offset + ptr + (length - 1)) = 0 := by
    rw [SimDMA.target, hpl]
    rfl
  have hr : d.offset + ptr + (length - 1) <
      alignAddr (d.offset + ptr) + 4 * (alignTo hostAddr data).2.1.length := by
    by_contra hge
    rw [serverWritePlatform_of_le (Nat.le_of_not_lt hge), ho, hz] at hla
    exact absurd hla (by decide)
  have hle := length_alignTo_le hostAddr data
  have hal := alignAddr_le (d.offset + ptr)
  have hne : data ≠ [] := ne_nil_of_length_pos (by omega)
  have ha : data.length ≤ 4 * (alignTo hostAddr data).2.1.length := by omega
  obtain ⟨hh, hd⟩ := dvd_of_length_alignTo hne ha
  refine ⟨?_, hl ▸ hd, hh⟩
  have had : alignAddr (d.offset + ptr) = d.offset + ptr := by omega
  rw [alignAddr] at had
  omega

theorem lt_of_returns (hp : d.isPlatform = true) (h : ptr + length ≤ d.size) (hr : ∀ ms : Memories,
      d.copyFrom ptr length ms = .ok ((d.target ms).readBytes (d.offset + ptr) length)) :
    length < 2 ^ 32 := by
  have heq := hr ⟨fun _ => 0, fun _ => 0⟩
  rw [copyFrom_platform hp h, copyFromSlice] at heq
  split at heq
  · rename_i hl
    rw [serverReadPlatform, length_map, length_readPlatformLoop] at hl
    omega
  · simp at heq

/-- **`SimDMA` refines `DirectDMA`** for the requests that are supported, and for no others. -/
theorem refines_iff (h : ptr + length ≤ d.size) :
    Refines d hostAddr ptr length ↔ Supported d hostAddr ptr length := by
  constructor
  · intro hrefines
    rcases Bool.eq_false_or_eq_true d.isPlatform with hplat | hmem
    · rcases Nat.eq_zero_or_pos length with hzero | hpos
      · exact .inr (.inl hzero)
      · obtain ⟨haddr, hlen, hhost⟩ := words_of_stores hplat h hpos hrefines.stores
        exact .inr (.inr ⟨haddr, hlen, hhost, lt_of_returns hplat h hrefines.returns⟩)
    · exact .inl hmem
  · intro hsupported
    rcases Bool.eq_false_or_eq_true d.isPlatform with hplat | hmem
    · rcases hsupported with hmem | rfl | ⟨haddr, hlen, hhost, hlt⟩
      · rw [hmem] at hplat
        exact absurd hplat (by decide)
      · exact refines_platform_zero hplat h
      · exact refines_platform_words hplat h haddr hlen hhost hlt
    · exact refines_of h (fun data ms hlen => copyTo_memory hmem (by omega) ms)
        fun ms => copyFrom_memory hmem h ms

end SimDMA

def localMemory : SimDMA where
  offset := 0x1000
  size := 0x1000
  fits := by decide
  isPlatform := true

theorem refines_iff_two_words : 8 + 8 ≤ localMemory.size ∧ Refines localMemory 0x4000 8 8 :=
  ⟨by decide, (refines_iff (by decide)).mpr (.inr (.inr (by decide)))⟩

/-- Of three bytes nothing is stored. -/
theorem three_bytes_lost :
    localMemory.copyTo 0x4000 [1, 2, 3] 8 ⟨fun _ => 0, fun _ => 0⟩ =
      .ok ⟨fun _ => 0, fun _ => 0⟩ ∧ ¬ Refines localMemory 0x4000 8 3 := by
  have hints : (alignTo 0x4000 [1, 2, 3]).2.1 = [] := by
    rw [alignTo, if_neg (by decide)]
    exact congrArg (List.map ofLeBytes) (chunks_nil 4)
  have hlost : localMemory.copyTo 0x4000 [1, 2, 3] 8 ⟨fun _ => 0, fun _ => 0⟩ =
      .ok ⟨fun _ => 0, fun _ => 0⟩ := by
    rw [copyTo_platform rfl (by decide), hints, serverWritePlatform, if_pos rfl, chunks_nil]
    rfl
  refine ⟨hlost, fun hrefines => ?_⟩
  have hstored := hrefines.stores [1, 2, 3] ⟨fun _ => 0, fun _ => 0⟩ rfl
  rw [hlost] at hstored
  have hbyte := congrArg (fun ms => ms.platform 0x1008) (Except.ok.inj hstored)
  exact absurd hbyte (by decide)

end Tapasco.Sim
