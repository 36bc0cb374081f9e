import Tapasco.Lib.ByteMem

/-!
# Hexadecimal Text

Text files that list numbers in hexadecimal: lists cut into chunks of a fixed length, the
two digits of a byte, and readers that split a text at separators and read the digits of a
number from left to right.
-/

open List

namespace HexText

/-! ### Chunks -/

section

variable {α β : Type*}

/-- Consecutive pieces of length `n`; the last one may be shorter. -/
def chunks (n : ℕ) (l : List α) : List (List α) :=
  if l = [] ∨ n = 0 then [] else l.take n :: chunks n (l.drop n)
termination_by l.length
decreasing_by
  have := length_pos_of_ne_nil (by tauto : l ≠ [])
  rw [length_drop]
  omega

@[simp] theorem chunks_nil (n : ℕ) : chunks n ([] : List α) = [] := by
  rw [chunks, if_pos (.inl rfl)]

theorem chunks_of_ne_nil {n : ℕ} (hn : 0 < n) {l : List α} (hl : l ≠ []) :
    chunks n l = l.take n :: chunks n (l.drop n) := by
  rw [chunks, if_neg (by rintro (h | h) <;> [exact hl h; omega])]

/-- **Induction along the chunks.** -/
theorem chunks_induction {n : ℕ} (hn : 0 < n) {P : List α → Prop} (nil : P [])
    (cons : ∀ l, l ≠ [] → P (l.drop n) → P l) (l : List α) : P l := by
  induction hlen : l.length using Nat.strongRecOn generalizing l with
  | ind k ih =>
    by_cases hl : l = []
    · rw [hl]
      exact nil
    have hp := length_pos_of_ne_nil hl
    refine cons l hl (ih (l.drop n).length ?_ _ rfl)
    rw [length_drop]
    omega

theorem length_of_mem_chunks {n : ℕ} (hn : 0 < n) {l c : List α} (hc : c ∈ chunks n l) :
    0 < c.length ∧ c.length ≤ n := by
  induction l using chunks_induction hn with
  | nil => simp at hc
  | cons l hl ih =>
    rw [chunks_of_ne_nil hn hl, mem_cons] at hc
    rcases hc with rfl | hc
    · have hp := length_pos_of_ne_nil hl
      rw [length_take]
      omega
    · exact ih hc

/-- **Writing in chunks.** An operation that can be done in two parts, the second of them
further on by the length of the first, can be done chunk by chunk. -/
theorem foldl_zipIdx_chunks {σ : Type*} {write : σ → ℕ → List α → σ} {size : ℕ}
    (hni : ∀ s a, write s a [] = s)
    (ha : ∀ s a l k, write s a (l ++ k) = write (write s a l) (a + size * l.length) k)
    {n : ℕ} (hn : 0 < n) (l : List α) (i a : ℕ) (s : σ) :
    ((chunks n l).zipIdx i).foldl (fun s c => write s (a + size * n * c.2) c.1) s =
      write s (a + size * n * i) l := by
  induction l using chunks_induction hn generalizing i s with
  | nil => rw [chunks_nil]; exact (hni _ _).symm
  | cons l hl ih =>
    rw [chunks_of_ne_nil hn hl, zipIdx_cons, foldl_cons, ih]
    by_cases hd : l.drop n = []
    · rw [hd, hni, take_of_length_le (drop_eq_nil_iff.mp hd)]
    have hlen : n ≤ l.length := by
      by_contra hlt
      exact hd (drop_eq_nil_iff.mpr (by omega))
    have hnex : a + size * n * (i + 1) = a + size * n * i + size * (l.take n).length := by
      rw [length_take, min_eq_left hlen, Nat.mul_add, mul_one, add_assoc]
    rw [hnex, ← ha, take_append_drop]

theorem chunks_one (l : List α) : chunks 1 l = l.map fun a => [a] := by
  induction l with
  | nil => exact chunks_nil 1
  | cons a l ih =>
    rw [chunks_of_ne_nil one_pos (cons_ne_nil a l), map_cons]
    exact congrArg _ ih

section

variable {f : α → List β} {m : ℕ} (hf : ∀ a, (f a).length = m)

include hf

theorem take_drop_flatMap (n : ℕ) (l : List α) :
    (l.flatMap f).take (n * m) = (l.take n).flatMap f ∧
      (l.flatMap f).drop (n * m) = (l.drop n).flatMap f := by
  induction n generalizing l with
  | zero => simp
  | succ n ih =>
    cases l with
    | nil => simp
    | cons a l =>
      have hl : (n + 1) * m = (f a).length + n * m := by
        rw [hf, Nat.succ_mul, add_comm]
      rw [flatMap_cons, hl, take_append, drop_append, Nat.add_sub_cancel_left, (ih l).1, (ih l).2,
        take_of_length_le (Nat.le_add_right _ _), drop_eq_nil_of_le (Nat.le_add_right _ _)]
      exact ⟨rfl, rfl⟩

/-- **Chunks of a list in which every element has become `m` elements.** -/
theorem chunks_flatMap (hm : 0 < m) {n : ℕ} (hn : 0 < n) (l : List α) :
    chunks (n * m) (l.flatMap f) = (chunks n l).map fun c => c.flatMap f := by
  induction l using chunks_induction hn with
  | nil => simp
  | cons l hl ih =>
    have hne : l.flatMap f ≠ [] := by
      obtain ⟨a, l, rfl⟩ := exists_cons_of_ne_nil hl
      intro h
      have hlen := congrArg List.length h
      rw [flatMap_cons, length_append, hf, length_nil] at hlen
      omega
    obtain ⟨ht, hd⟩ := take_drop_flatMap hf n l
    rw [chunks_of_ne_nil (Nat.mul_pos hn hm) hne, ht, hd, ih, chunks_of_ne_nil hn hl, map_cons]

end

end

/-! ### Tokens -/

section

variable {sep : Char → Bool}

/-- The non-empty pieces of a text between separators. -/
def tokens (sep : Char → Bool) (text : List Char) : List (List Char) :=
  (text.splitOnP sep).filter fun t => !t.isEmpty

@[simp] theorem tokens_nil : tokens sep [] = [] := by
  simp [tokens]

theorem tokens_word {w : List Char} (hw : ∀ c ∈ w, sep c = false) (hne : w ≠ []) :
    tokens sep w = [w] := by
  rw [tokens, splitOnP_eq_singleton hw]
  simp [hne]

theorem tokens_word_append {w l : List Char} {c : Char} (hw : ∀ c ∈ w, sep c = false)
    (hne : w ≠ []) (hc : sep c = true) : tokens sep (w ++ c :: l) = w :: tokens sep l := by
  rw [tokens, splitOnP_append_cons_of_forall_mem hw c hc, filter_cons_of_pos]
  · rfl
  · simp [hne]

theorem tokens_append_of_seps {s l : List Char} (hs : ∀ c ∈ s, sep c = true) :
    tokens sep (s ++ l) = tokens sep l := by
  induction s with
  | nil => rfl
  | cons c s ih =>
    rw [forall_mem_cons] at hs
    have hsp : (c :: (s ++ l)).splitOnP sep = [] :: (s ++ l).splitOnP sep :=
      @List.splitOnP_append_cons_of_forall_mem _ sep [] (by simp) c hs.1 (s ++ l)
    rw [cons_append, tokens, hsp, filter_cons_of_neg (by simp)]
    exact ih hs.2

theorem forall_mem_of_all {P : Char → Prop} [DecidablePred P] {text : List Char}
    (h : text.all (fun c => decide (P c)) = true) : ∀ c ∈ text, P c :=
  fun c hc => of_decide_eq_true (all_eq_true.mp h c hc)

theorem forall_mem_intercalate {P : Char → Prop} {s : List Char} (hs : ∀ c ∈ s, P c)
    {ws : List (List Char)} (hw : ∀ w ∈ ws, ∀ c ∈ w, P c) : ∀ c ∈ s.intercalate ws, P c := by
  induction ws with
  | nil => exact fun c hc => absurd hc not_mem_nil
  | cons w ws ih =>
    rw [forall_mem_cons] at hw
    cases ws with
    | nil =>
      rw [intercalate_singleton]
      exact hw.1
    | cons v ws =>
      rw [intercalate_cons_cons, forall_mem_append, forall_mem_append]
      exact ⟨⟨hw.1, hs⟩, ih hw.2⟩

/-- **Joined words are found again.** -/
theorem tokens_intercalate {s : List Char} (hne : s ≠ []) (hs : ∀ c ∈ s, sep c = true)
    {ws : List (List Char)} (hws : ∀ w ∈ ws, w ≠ [] ∧ ∀ c ∈ w, sep c = false) :
    tokens sep (s.intercalate ws) = ws := by
  induction ws with
  | nil => exact tokens_nil
  | cons w ws ih =>
    rw [forall_mem_cons] at hws
    obtain ⟨⟨hw, hc⟩, hws⟩ := hws
    cases ws with
    | nil =>
      rw [intercalate_singleton]
      exact tokens_word hc hw
    | cons v ws =>
      obtain ⟨c, s, rfl⟩ := exists_cons_of_ne_nil hne
      rw [forall_mem_cons] at hs
      rw [intercalate_cons_cons, append_assoc, cons_append,
        tokens_word_append hc hw hs.1, tokens_append_of_seps hs.2, ih hws]

end

/-! ### Numbers -/

/-- The two digits of a byte. -/
def hexByte (b : Byte) : List Char :=
  [Nat.digitChar (b.toNat / 16), Nat.digitChar (b.toNat % 16)]

/-- The value of a hexadecimal digit. -/
def hexValue (c : Char) : Option ℕ :=
  if '0' ≤ c ∧ c ≤ '9' then some (c.toNat - 48)
  else if 'a' ≤ c ∧ c ≤ 'f' then some (c.toNat - 87)
  else if 'A' ≤ c ∧ c ≤ 'F' then some (c.toNat - 55)
  else none

/-- Read digits from left to right, behind a number. -/
def readDigits : ℕ → List Char → Option ℕ
  | n, [] => some n
  | n, c :: l => (hexValue c).bind fun d => readDigits (n * 16 + d) l

/-- Read a number, which has at least one digit. -/
def readHex (text : List Char) : Option ℕ :=
  if text = [] then none else readDigits 0 text

theorem hexValue_digitChar : ∀ d < 16, hexValue (Nat.digitChar d) = some d := by
  decide

theorem readDigits_append (n : ℕ) (l m : List Char) :
    readDigits n (l ++ m) = (readDigits n l).bind fun k => readDigits k m := by
  induction l generalizing n with
  | nil => rfl
  | cons c l ih =>
    rw [cons_append, readDigits, readDigits, Option.bind_assoc]
    exact congrArg _ (funext fun d => ih (n * 16 + d))

theorem readDigits_hexByte (n : ℕ) (b : Byte) :
    readDigits n (hexByte b) = some (n * 256 + b.toNat) := by
  have hb : b.toNat < 256 := b.isLt
  have hd : b.toNat / 16 < 16 := by omega
  have hm : b.toNat % 16 < 16 := by omega
  simp only [hexByte, readDigits, hexValue_digitChar _ hd, hexValue_digitChar _ hm,
    Option.bind_some, Option.some.injEq]
  omega

/-- **The digits of bytes**, the most significant byte first. -/
theorem readDigits_flatMap_hexByte (n : ℕ) (bs : List Byte) :
    readDigits n (bs.flatMap hexByte) = some (bs.foldl (fun k b => k * 256 + b.toNat) n) := by
  induction bs generalizing n with
  | nil => rfl
  | cons b bs ih =>
    rw [flatMap_cons, readDigits_append, readDigits_hexByte, Option.bind_some, ih, foldl_cons]

/-- The digits of bytes are read as the number that has these bytes, the first one as the most
significant. -/
theorem readHex_flatMap_hexByte {bs : List Byte} (hb : bs ≠ []) :
    readHex (bs.flatMap hexByte) = some (bs.foldl (fun k b => k * 256 + b.toNat) 0) := by
  have hne : bs.flatMap hexByte ≠ [] := by
    obtain ⟨b, bs, rfl⟩ := exists_cons_of_ne_nil hb
    simp [hexByte]
  rw [readHex, if_neg hne, readDigits_flatMap_hexByte]

theorem forall_mem_flatMap_hexByte {P : Char → Prop} (hP : ∀ d < 16, P (Nat.digitChar d))
    (bs : List Byte) : ∀ c ∈ bs.flatMap hexByte, P c := by
  intro c hc
  obtain ⟨b, -, hb⟩ := mem_flatMap.mp hc
  have hlt : b.toNat < 256 := b.isLt
  simp only [hexByte, mem_cons, not_mem_nil, or_false] at hb
  rcases hb with rfl | rfl <;> exact hP _ (by omega)

end HexText
