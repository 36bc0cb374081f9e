import Tapasco.Lib.HexText
import Tapasco.Pe

/-!
# The Image of the Status Core

`json_to_status` writes the encoded status message as the initial contents of a memory with
64-bit words, in one of two text formats: `write_mem_file` and `write_coe_file` in `main.rs`.
Both take the hexadecimal digits of the message in pieces of 16 and reverse the pairs of
digits in each piece. The runtime copies the first 8192 bytes of this memory in `device.rs`
and decodes the message that stands there with its length in front.

The digits and the encoded messages come from the crates `hex` and `prost`, of which only the
documented behaviour is used. The readers `readMem` and `readCoe` say what the two formats mean. A
word with less than 16 digits is a number like any other, so the missing digits are zeros in its
high bytes.
-/

open HexText List

namespace Tapasco

/-! ### Numbers and their bytes -/

theorem leBytes_zero (n : ℕ) : leBytes n 0 = List.replicate n 0 := by
  induction n with
  | zero => rfl
  | succ n ih =>
    rw [leBytes, Nat.zero_div, ih, replicate_succ]
    rfl

theorem leBytes_ofLeBytes {n : ℕ} {l : List Byte} (h : l.length ≤ n) :
    leBytes n (ofLeBytes l) = l ++ List.replicate (n - l.length) 0 := by
  induction l generalizing n with
  | nil => exact leBytes_zero n
  | cons b l ih =>
    obtain ⟨n, rfl⟩ : ∃ m, n = m + 1 := ⟨n - 1, by rw [length_cons] at h; omega⟩
    have hb : b.toNat < 256 := b.isLt
    have hh : BitVec.ofNat 8 (b.toNat + 256 * ofLeBytes l) = b := by
      apply BitVec.eq_of_toNat_eq
      rw [BitVec.toNat_ofNat]
      omega
    have ht : (b.toNat + 256 * ofLeBytes l) / 256 = ofLeBytes l := by omega
    rw [ofLeBytes, leBytes, hh, ht, ih (by simpa using h), length_cons, Nat.add_sub_add_right]
    rfl

theorem ofLeBytes_lt (l : List Byte) : ofLeBytes l < 256 ^ l.length := by
  induction l with
  | nil => exact one_pos
  | cons b l ih =>
    have hb : b.toNat < 256 := b.isLt
    rw [ofLeBytes, length_cons, pow_succ]
    omega

theorem foldl_reverse_eq_ofLeBytes (l : List Byte) :
    l.reverse.foldl (fun k b => k * 256 + b.toNat) 0 = ofLeBytes l := by
  rw [foldl_reverse]
  induction l with
  | nil => rfl
  | cons b l ih =>
    rw [foldr_cons, ih, ofLeBytes]
    omega

namespace StatusImage

/-! ### The files -/

/-- What is used of the crates `hex` and `prost`, for messages of some type. -/
structure Crates (M : Type) where
  hexEncode : List Byte → List Char
  encodeLengthDelimited : M → List Byte
  decodeLengthDelimited : List Byte → Option M

/-- **Their documented behaviour**: two digits for each byte, in the order of the bytes; and a
message with its length in front is decoded, whatever follows it. -/
structure Crates.Documented {M : Type} (c : Crates M) : Prop where
  hexEncode_eq : ∀ data, c.hexEncode data = data.flatMap hexByte
  decode_encode : ∀ message rest,
    c.decodeLengthDelimited (c.encodeLengthDelimited message ++ rest) = some message

section

variable {M : Type} (crates : Crates M)

/-- The pairs of digits of a piece, in reverse order. -/
def joined (c : List Char) : List Char :=
  (chunks 2 c).reverse.flatten

/-- The variable `init_vec` after the loop over the pieces of 16 digits. -/
def initVec (separator : List Char) (data : List Byte) : List Char :=
  (chunks 16 (crates.hexEncode data)).foldl (fun initVec c =>
    if initVec.isEmpty then joined c else initVec ++ separator ++ joined c) []

def writeMemFile (data : List Byte) : List Char :=
  "@0\n".toList ++ initVec crates "\n".toList data

def radixName : List Char :=
  "memory_initialization_radix".toList

/-- The name of the words in a `.coe` file. -/
def vectorName : List Char :=
  "memory_initialization_vector".toList

/-- A new line and its indentation in the template of `write_coe_file`. -/
def newLine : List Char :=
  "\n    ".toList

def writeCoeFile (data : List Byte) : List Char :=
  radixName ++ "=16;".toList ++ newLine ++ vectorName ++ "=".toList ++ newLine ++
    initVec crates ",\n                ".toList data ++ ";".toList ++ newLine

end

/-! ### What the formats mean -/

/-- Read a `.mem` file: an address behind `@` and the words from there on. -/
def readMem (text : List Char) : Option (ℕ × List ℕ) :=
  match tokens Char.isWhitespace text with
  | ('@' :: address) :: words => do return (← readHex address, ← words.mapM readHex)
  | _ => none

/-- Characters between the parts of a statement of a `.coe` file. -/
def isSeparator (c : Char) : Bool :=
  c.isWhitespace || c == '=' || c == ','

/-- Read a `.coe` file: the radix, which has to be 16, and the words. -/
def readCoe (text : List Char) : Option (List ℕ) :=
  match (text.splitOn ';').map (tokens isSeparator) with
  | [radix, vector, []] =>
    if radix = [radixName, "16".toList] then
      match vector with
      | name :: words => if name = vectorName then words.mapM readHex else none
      | [] => none
    else none
  | _ => none

/-- The bytes of a memory with 64-bit words. -/
def contents (words : List ℕ) : List Byte :=
  words.flatMap (leBytes 8)

/-! ### The words of the files -/

/-- The words of the image: eight bytes each, and the last one has the bytes that are left. -/
def words (data : List Byte) : List ℕ :=
  (chunks 8 data).map ofLeBytes

/-- The digits of the words. -/
def wordTexts (data : List Byte) : List (List Char) :=
  (chunks 8 data).map fun bs => bs.reverse.flatMap hexByte

variable {M : Type} {crates : Crates M}

theorem joined_flatMap_hexByte (bs : List Byte) :
    joined (bs.flatMap hexByte) = bs.reverse.flatMap hexByte := by
  have hc : chunks 2 (bs.flatMap hexByte) = bs.map hexByte := by
    have h := chunks_flatMap (f := hexByte) (m := 2) (fun _ => rfl) Nat.two_pos one_pos bs
    rw [one_mul] at h
    rw [h, chunks_one, map_map]
    exact map_congr_left fun b _ => flatMap_singleton hexByte b
  rw [joined, hc, ← map_reverse, flatMap_def]

theorem map_joined (hc : crates.Documented) (data : List Byte) :
    (chunks 16 (crates.hexEncode data)).map joined = wordTexts data := by
  have h := chunks_flatMap (f := hexByte) (m := 2) (fun _ => rfl) Nat.two_pos
    (show 0 < 8 by decide) data
  rw [hc.hexEncode_eq, h, map_map, wordTexts]
  exact map_congr_left fun bs _ => joined_flatMap_hexByte bs

theorem foldl_join {sep : List Char} {acc : List Char} (ha : acc ≠ []) (ws : List (List Char)) :
    ws.foldl (fun initVec w => if initVec.isEmpty then w else initVec ++ sep ++ w) acc =
      sep.intercalate (acc :: ws) := by
  induction ws generalizing acc with
  | nil => rw [foldl_nil, intercalate_singleton]
  | cons w ws ih =>
    have he : acc.isEmpty = false := by simpa using ha
    rw [foldl_cons, he, if_neg Bool.false_ne_true, ih (by simp [ha])]
    cases ws with
    | nil => simp [intercalate_cons_cons]
    | cons v ws => simp [intercalate_cons_cons]

theorem ne_nil_of_mem_wordTexts {data : List Byte} {w : List Char} (hw : w ∈ wordTexts data) :
    w ≠ [] ∧ ∀ {P : Char → Prop}, (∀ d < 16, P (Nat.digitChar d)) → ∀ c ∈ w, P c := by
  obtain ⟨bs, hb, rfl⟩ := mem_map.mp hw
  refine ⟨?_, fun hP => forall_mem_flatMap_hexByte hP _⟩
  have hp := (length_of_mem_chunks (by decide) hb).1
  obtain ⟨b, bs, rfl⟩ := exists_cons_of_length_pos hp
  simp [hexByte]

theorem initVec_eq (hc : crates.Documented) (sep : List Char) (data : List Byte) :
    initVec crates sep data = sep.intercalate (wordTexts data) := by
  have hf : initVec crates sep data = (wordTexts data).foldl (fun initVec w =>
      if initVec.isEmpty then w else initVec ++ sep ++ w) [] := by
    rw [initVec, ← map_joined hc, foldl_map]
  rw [hf]
  cases h : wordTexts data with
  | nil => rfl
  | cons w ws =>
    have hw : w ∈ wordTexts data := by rw [h]; exact mem_cons_self
    rw [foldl_cons, isEmpty_nil, if_pos rfl]
    exact foldl_join (ne_nil_of_mem_wordTexts hw).1 ws

theorem mapM_readHex_wordTexts (data : List Byte) :
    (wordTexts data).mapM readHex = some (words data) := by
  have hr : ∀ bs ∈ chunks 8 data,
      readHex (bs.reverse.flatMap hexByte) = some (ofLeBytes bs) := by
    intro bs hb
    have hp := (length_of_mem_chunks (by decide) hb).1
    have hne : bs.reverse ≠ [] := by
      rw [ne_eq, reverse_eq_nil_iff]
      exact ne_nil_of_length_pos hp
    rw [readHex_flatMap_hexByte hne, foldl_reverse_eq_ofLeBytes]
  rw [wordTexts, words]
  generalize chunks 8 data = l at hr
  induction l with
  | nil => rfl
  | cons bs l ih =>
    rw [forall_mem_cons] at hr
    rw [map_cons, mapM_cons, hr.1, ih hr.2]
    rfl

theorem readMem_writeMemFile (hc : crates.Documented) (data : List Byte) :
    readMem (writeMemFile crates data) = some (0, words data) := by
  have hwo : ∀ w ∈ wordTexts data, w ≠ [] ∧ ∀ c ∈ w, c.isWhitespace = false :=
    fun w hw => ⟨(ne_nil_of_mem_wordTexts hw).1, (ne_nil_of_mem_wordTexts hw).2 (by decide)⟩
  have ht : tokens Char.isWhitespace (writeMemFile crates data) = ['@', '0'] :: wordTexts data := by
    have hte : writeMemFile crates data =
        ['@', '0'] ++ '\n' :: ['\n'].intercalate (wordTexts data) := by
      rw [writeMemFile, initVec_eq hc]
      rfl
    rw [hte, tokens_word_append (forall_mem_of_all (by decide)) (by decide) (by decide),
      tokens_intercalate (by decide) (forall_mem_of_all (by decide)) hwo]
  have ha : readHex ['0'] = some 0 := by decide
  rw [readMem, ht]
  simp only [ha, mapM_readHex_wordTexts]
  rfl

theorem separator_names :
    (∀ c ∈ radixName, isSeparator c = false ∧ (c == ';') = false) ∧
      ∀ c ∈ vectorName, isSeparator c = false ∧ (c == ';') = false :=
  ⟨forall_mem_of_all (by decide), forall_mem_of_all (by decide)⟩

theorem separator_newLine : ∀ c ∈ newLine, isSeparator c = true ∧ (c == ';') = false :=
  forall_mem_of_all (by decide)

theorem readCoe_writeCoeFile (hc : crates.Documented) (data : List Byte) :
    readCoe (writeCoeFile crates data) = some (words data) := by
  have hwo : ∀ w ∈ wordTexts data, w ≠ [] ∧ ∀ c ∈ w, isSeparator c = false :=
    fun w hw => ⟨(ne_nil_of_mem_wordTexts hw).1, (ne_nil_of_mem_wordTexts hw).2 (by decide)⟩
  obtain ⟨hr, hv⟩ := separator_names
  have hn := separator_newLine
  -- the text between the two semicolons
  obtain ⟨vector, hve⟩ : ∃ vector, vector = newLine ++ (vectorName ++ '=' ::
    (newLine ++ ",\n                ".toList.intercalate (wordTexts data))) := ⟨_, rfl⟩
  have ht : writeCoeFile crates data =
      (radixName ++ '=' :: "16".toList) ++ ';' :: (vector ++ ';' :: newLine) := by
    rw [writeCoeFile, initVec_eq hc, hve]
    simp
  have hch : ∀ c ∈ vector, (c == ';') = false := by
    rw [hve]
    simp only [forall_mem_append, forall_mem_cons]
    refine ⟨fun c hc => (hn c hc).2, fun c hc => (hv c hc).2, by decide,
      fun c hc => (hn c hc).2, ?_⟩
    exact forall_mem_intercalate (forall_mem_of_all (by decide)) fun w hw =>
      (ne_nil_of_mem_wordTexts hw).2 (by decide)
  have hs : (writeCoeFile crates data).splitOn ';' =
      [radixName ++ '=' :: "16".toList, vector, newLine] := by
    rw [ht, List.splitOn, splitOnP_append_cons_of_forall_mem _ ';' rfl,
      splitOnP_append_cons_of_forall_mem hch ';' rfl, splitOnP_eq_singleton fun c hc => (hn c hc).2]
    exact forall_mem_append.mpr
      ⟨fun c hc => (hr c hc).2, forall_mem_of_all (by decide)⟩
  have hra : tokens isSeparator (radixName ++ '=' :: "16".toList) =
      [radixName, "16".toList] := by
    rw [tokens_word_append (fun c hc => (hr c hc).1) (by decide) (by decide),
      tokens_word (forall_mem_of_all (by decide)) (by decide)]
  have hvec : tokens isSeparator vector = vectorName :: wordTexts data := by
    rw [hve, tokens_append_of_seps fun c hc => (hn c hc).1,
      tokens_word_append (fun c hc => (hv c hc).1) (by decide) (by decide),
      tokens_append_of_seps fun c hc => (hn c hc).1,
      tokens_intercalate (by decide) (forall_mem_of_all (by decide)) hwo]
  have hre : tokens isSeparator newLine = [] := by
    have h := tokens_append_of_seps (l := []) fun c hc => (hn c hc).1
    rwa [append_nil, tokens_nil] at h
  simp only [readCoe, hs, map_cons, map_nil, hra, hvec, hre, if_true, mapM_readHex_wordTexts]

/-! ### The contents of the memory -/

theorem words_lt {data : List Byte} {w : ℕ} (hw : w ∈ words data) : w < 2 ^ 64 := by
  obtain ⟨bs, hb, rfl⟩ := mem_map.mp hw
  have hl := (length_of_mem_chunks (by decide) hb).2
  exact lt_of_lt_of_le (ofLeBytes_lt bs) (Nat.pow_le_pow_right (by decide : 0 < 256) hl)

theorem contents_words (data : List Byte) :
    contents (words data) = data ++ List.replicate ((8 - data.length % 8) % 8) 0 := by
  induction data using chunks_induction (show 0 < 8 by decide) with
  | nil => simp [words, contents]
  | cons l hl ih =>
    have hlen : (l.take 8).length ≤ 8 := length_take_le 8 l
    have hs : contents (words l) = leBytes 8 (ofLeBytes (l.take 8)) ++
        contents (words (l.drop 8)) := by
      rw [words, chunks_of_ne_nil (by decide) hl]
      rfl
    rw [hs, ih, leBytes_ofLeBytes hlen]
    have hp := length_pos_of_ne_nil hl
    rcases lt_or_ge l.length 8 with hlt | hge
    · -- the last word: the zeros follow the bytes that are left
      have hz : (8 - l.length % 8) % 8 = 8 - l.length := by omega
      rw [take_of_length_le (by omega), drop_eq_nil_of_le (by omega), hz]
      simp
    · have ht : (l.take 8).length = 8 := by
        rw [length_take]
        omega
      have hm : (l.drop 8).length % 8 = l.length % 8 := by
        rw [length_drop]
        omega
      rw [ht, hm, Nat.sub_self, replicate_zero, append_nil, ← append_assoc, take_append_drop]

/-! ### The whole way -/

/-- The copy of the status core in `device.rs`: the first 8192 bytes of a memory, which is zero
behind the initialised words. -/
def mmapCpy (words : List ℕ) : List Byte :=
  (contents words ++ List.replicate 8192 0).take 8192

/-- **The image of the status core**: both files have the same 64-bit words, whose bytes are the
data and less than eight zeros. If the data is a message with its length in front, the message is
decoded from this memory, and by the runtime if it fits the 8192 bytes that the runtime copies. -/
theorem image_roundTrip (hcrates : crates.Documented) (data : List Byte) :
    ∃ words, readMem (writeMemFile crates data) = some (0, words) ∧
      readCoe (writeCoeFile crates data) = some words ∧ (∀ w ∈ words, w < 2 ^ 64) ∧
      (∃ k < 8, contents words = data ++ List.replicate k 0) ∧
      ∀ message, data = crates.encodeLengthDelimited message →
        crates.decodeLengthDelimited (contents words) = some message ∧
        (data.length ≤ 8192 → crates.decodeLengthDelimited (mmapCpy words) = some message) := by
  refine ⟨words data, readMem_writeMemFile hcrates data, readCoe_writeCoeFile hcrates data,
    fun w => words_lt, ⟨_, Nat.mod_lt _ (by decide), contents_words data⟩, ?_⟩
  rintro message rfl
  rw [mmapCpy, contents_words]
  refine ⟨hcrates.decode_encode message _, fun hfits => ?_⟩
  rw [append_assoc, take_append, take_of_length_le hfits]
  exact hcrates.decode_encode message _

/-- Messages of one byte. -/
def oneByte : Crates Byte where
  hexEncode data := data.flatMap hexByte
  encodeLengthDelimited message := [1, message]
  decodeLengthDelimited
    | 1 :: message :: _ => some message
    | _ => none

theorem image_roundTrip_oneByte :
    ∃ words, readMem (writeMemFile oneByte [1, 0x2a]) = some (0, words) ∧
      readCoe (writeCoeFile oneByte [1, 0x2a]) = some words ∧ (∀ w ∈ words, w < 2 ^ 64) ∧
      (∃ k < 8, contents words = [1, 0x2a] ++ List.replicate k 0) ∧
      ∀ message, [1, 0x2a] = oneByte.encodeLengthDelimited message →
        oneByte.decodeLengthDelimited (contents words) = some message ∧
        ([1, 0x2a].length ≤ 8192 → oneByte.decodeLengthDelimited (mmapCpy words) = some message) :=
  image_roundTrip ⟨fun _ => rfl, fun _ _ => rfl⟩ [1, 0x2a]

/-- A message of nine bytes: its image has two words, the second one with two bytes. -/
example : words [9, 1, 2, 3, 4, 5, 6, 7, 8, 255] = [0x0706050403020109, 0xff08] := by
  decide +kernel

end StatusImage

end Tapasco
