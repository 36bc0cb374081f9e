import Tapasco.SvmPlacement

/-!
# The TLB of a Device

The MMU of a device translates virtual pages with the entries of its TLB. The driver gives it
commands through three registers: two addresses and a command word, with the command in its low bits
and a number of pages in its upper 16 bits. This module embeds how a migration adds the entries for
the pages it has moved, and how the driver has entries removed again.

The registers are 64 bits wide. The MMU counts pages of virtual addresses with 45 bits and takes a
length of 0 for 1, as the command to remove a single entry has it.
-/

open List

namespace Tapasco.Svm

def mmuInvalidateEntry : ℕ := 2

def mmuAddEntry : ℕ := 4

def mmuAddAlEntry : ℕ := 6

def mmuMaxMappingLength : ℕ := 32768

/-- The registers of the MMU when an entry is added. -/
structure TlbEntry where
  vaddr : ℕ
  paddr : ℕ
  cmd : ℕ

def addTlbEntry (vaddr paddr : ℕ) : TlbEntry :=
  ⟨vaddr % 2 ^ 64, paddr % 2 ^ 64, mmuAddEntry⟩

def addAlTlbEntry (vaddr paddr npages : ℕ) : TlbEntry :=
  ⟨vaddr % 2 ^ 64, paddr % 2 ^ 64, (mmuAddAlEntry ||| npages <<< 48) % 2 ^ 64⟩

/-- The loop that adds the entries of a migration, from page `i` on. The last page has an entry of
its own, and so has each page of a piece that is too short. -/
def addTlbLoop (vaddr base npages i : ℕ) : List TlbEntry :=
  if i < npages - 1 then
    let ncontiguous := min (npages - 1 - i) mmuMaxMappingLength
    (if 64 ≤ ncontiguous then
      [addAlTlbEntry (vaddr + i * pageSize) (devAddr (base + i)) ncontiguous]
    else
      (range' i ncontiguous).map fun j =>
        addTlbEntry (vaddr + j * pageSize) (devAddr (base + j))) ++
      addTlbLoop vaddr base npages (i + ncontiguous)
  else if i < npages then [addTlbEntry (vaddr + i * pageSize) (devAddr (base + i))]
  else []
termination_by npages - i
decreasing_by
  simp only [mmuMaxMappingLength]
  omega

/-- The entries that a migration to a device adds for pages that are now there from page `base` on.
-/
def addTlbEntries (vaddr base npages : ℕ) : List TlbEntry :=
  addTlbEntry vaddr (devAddr base) :: addTlbLoop vaddr base npages 1

namespace TlbEntry

/-- The number of pages of an entry, from the command word. -/
def length (e : TlbEntry) : ℕ :=
  if e.cmd % 16 = mmuAddAlEntry then e.cmd / 2 ^ 48 else 1

/-- The virtual addresses of the pages of an entry, with their addresses on the device. -/
def translations (e : TlbEntry) : List (ℕ × ℕ) :=
  (List.range e.length).map fun k =>
    ((e.vaddr + k * pageSize) % 2 ^ 64, (e.paddr + k * pageSize) % 2 ^ 64)

end TlbEntry

/-! ### Adding entries -/

/-- The translation of page `k` of a migration. -/
def pageAt (vaddr base k : ℕ) : ℕ × ℕ :=
  ((vaddr + k * pageSize) % 2 ^ 64, devAddr (base + k) % 2 ^ 64)

section

variable {vaddr base npages i : ℕ}

theorem shiftLeft_or (len : ℕ) {cmd : ℕ} (h : cmd < 2 ^ 48) :
    len <<< 48 ||| cmd = len * 2 ^ 48 + cmd := by
  rw [← Nat.shiftLeft_eq]
  exact (Nat.shiftLeft_add_eq_or_of_lt h len).symm

theorem length_addTlbEntry (a b : ℕ) : (addTlbEntry a b).length = 1 := rfl

theorem length_addAlTlbEntry {a b : ℕ} (h : npages < 2 ^ 16) :
    (addAlTlbEntry a b npages).length = npages := by
  have hc : (addAlTlbEntry a b npages).cmd = npages * 2 ^ 48 + 6 := by
    rw [addAlTlbEntry, mmuAddAlEntry, Nat.or_comm, shiftLeft_or _ (by decide)]
    exact Nat.mod_eq_of_lt (by omega)
  rw [TlbEntry.length, hc, mmuAddAlEntry, if_pos] <;> omega

theorem translations_addTlbEntry :
    (addTlbEntry (vaddr + i * pageSize) (devAddr (base + i))).translations =
      [pageAt vaddr base i] := by
  simp [TlbEntry.translations, TlbEntry.length, addTlbEntry, pageAt, mmuAddEntry, mmuAddAlEntry]

theorem translations_addAlTlbEntry (h : npages < 2 ^ 16) :
    (addAlTlbEntry (vaddr + i * pageSize) (devAddr (base + i)) npages).translations =
      (range' i npages).map (pageAt vaddr base) := by
  rw [TlbEntry.translations, length_addAlTlbEntry h, range'_eq_map_range, map_map]
  refine map_congr_left fun k _ => ?_
  simp only [addAlTlbEntry, pageAt, Function.comp_apply, devAddr, Nat.mod_add_mod, add_mul,
    add_assoc]

/-- **The loop adds each page from `i` on**, in order. -/
theorem translations_addTlbLoop (hi : i ≤ npages) :
    (addTlbLoop vaddr base npages i).flatMap TlbEntry.translations =
      (range' i (npages - i)).map (pageAt vaddr base) := by
  fun_induction addTlbLoop vaddr base npages i with
  | case1 i hlt n ih =>
    have hn : n ≤ npages - 1 - i := min_le_left ..
    have hp : (if 64 ≤ n then
        [addAlTlbEntry (vaddr + i * pageSize) (devAddr (base + i)) n]
      else (range' i n).map fun j =>
        addTlbEntry (vaddr + j * pageSize) (devAddr (base + j))).flatMap TlbEntry.translations =
        (range' i n).map (pageAt vaddr base) := by
      split
      · have hm : n < 2 ^ 16 := (min_le_right ..).trans_lt (by decide)
        rw [flatMap_singleton, translations_addAlTlbEntry hm]
      · rw [flatMap_map, map_eq_flatMap]
        simp only [translations_addTlbEntry]
    have hs : npages - i = n + (npages - (i + n)) := by omega
    rw [flatMap_append, hp, ih (by omega), hs, ← range'_append_1, map_append]
  | case2 i hge hlt =>
    have ho : npages - i = 1 := by omega
    rw [flatMap_singleton, translations_addTlbEntry, ho]
    rfl
  | case3 i hge hg' =>
    rw [Nat.sub_eq_zero_of_le (not_lt.mp hg')]
    rfl

theorem translations_addTlbEntries (hp : 0 < npages) :
    (addTlbEntries vaddr base npages).flatMap TlbEntry.translations =
      (List.range npages).map (pageAt vaddr base) := by
  have hf : (addTlbEntry vaddr (devAddr base)).translations = [pageAt vaddr base 0] := by
    simpa using @translations_addTlbEntry vaddr base 0
  have hs : npages = 1 + (npages - 1) := by omega
  rw [addTlbEntries, flatMap_cons, hf, translations_addTlbLoop hp, range_eq_range']
  nth_rewrite 2 [hs]
  rw [← range'_append_1]
  rfl

theorem length_le_of_mem_addTlbLoop {e : TlbEntry} (he : e ∈ addTlbLoop vaddr base npages i) :
    e.length ≤ mmuMaxMappingLength := by
  have ho (a b : ℕ) : (addTlbEntry a b).length ≤ mmuMaxMappingLength := by
    rw [length_addTlbEntry]
    decide
  fun_induction addTlbLoop vaddr base npages i with
  | case1 i hlt n ih =>
    rcases mem_append.mp he with he | he
    · have hm : n ≤ mmuMaxMappingLength := min_le_right ..
      split at he
      · rw [mem_singleton.mp he, length_addAlTlbEntry (hm.trans_lt (by decide))]
        exact hm
      · obtain ⟨j, -, rfl⟩ := mem_map.mp he
        exact ho _ _
    · exact ih he
  | case2 i hge hlt =>
    rw [mem_singleton.mp he]
    exact ho _ _
  | case3 i hge hg' => cases he

theorem nodup_pageAt (h : npages ≤ 2 ^ 52) :
    ((List.range npages).map fun k => (pageAt vaddr base k).1).Nodup := by
  refine nodup_range.map_on fun j hj k hk heq => ?_
  rw [List.mem_range] at hj hk
  simp only [pageAt, pageSize] at heq
  omega

end

/-- **The entries of a migration are exact.** For every number of pages, virtual address and region
of the device, each page is in one entry, with its own page of the device, and no entry is too long.
A migration that succeeds leaves the pages in such a region. -/
theorem tlb_entries_exact {npages : ℕ} (hpos : 0 < npages) (hint : npages < 2 ^ 31) (vaddr : ℕ) :
    (∀ base, (addTlbEntries vaddr base npages).flatMap TlbEntry.translations =
        (List.range npages).map (pageAt vaddr base) ∧
      (((addTlbEntries vaddr base npages).flatMap TlbEntry.translations).map Prod.fst).Nodup ∧
      ∀ e ∈ addTlbEntries vaddr base npages, e.length ≤ mmuMaxMappingLength) ∧
    ∀ (n : ℕ) (v : Kernel) (dev : Fin n) (attempts : List (Attempt n)) (s s' : State n),
      (svmMigrateRamToDev v dev vaddr npages attempts s = (s', true) ∨
        ∃ src, svmMigrateDevToDev v src dev vaddr npages attempts s = (s', true)) →
      ∃ base, ∀ p ∈ vpages vaddr npages,
        s'.table p = some (dev, base + (p - vaddr / pageSize)) := by
  refine ⟨fun base => ⟨translations_addTlbEntries hpos, ?_, fun e he => ?_⟩, ?_⟩
  · rw [translations_addTlbEntries hpos, map_map]
    exact nodup_pageAt (hint.le.trans (by decide))
  · rcases mem_cons.mp he with rfl | he
    · rw [length_addTlbEntry]
      decide
    · exact length_le_of_mem_addTlbLoop he
  · rintro n v dev attempts s s' (hok | ⟨src, hok⟩)
    · exact (svmMigrateRamToDev_ok hok).2.1
    · exact (svmMigrateDevToDev_ok hok).2.1

/-- A hundred thousand pages. -/
theorem tlb_entries_exact_large :
    (((addTlbEntries 0 0 100000).flatMap TlbEntry.translations).map Prod.fst).Nodup :=
  ((@tlb_entries_exact 100000 (by decide) (by decide) 0).1 0).2.1

/-! ### Removing entries -/

/-- `invalidate_tlb_range`: what it writes to the registers `vaddr` and `cmd`. -/
def invalidateTlbRange (base : ℕ) (npages : ℤ) : ℕ × ℕ :=
  (base, ((npages % 2 ^ 64).toNat <<< 48) % 2 ^ 64 ||| mmuInvalidateEntry)

/-- The numbers of the virtual pages that the MMU takes out for a command. -/
def invalidatedPages (w : ℕ × ℕ) : List ℕ :=
  let lengthRaw := w.2 / 2 ^ 48
  (List.range (if lengthRaw = 0 then 1 else lengthRaw)).map fun k =>
    (w.1 / pageSize % 2 ^ 45 + k) % 2 ^ 45

theorem length_invalidateTlbRange (base : ℕ) (npages : ℤ) :
    (((invalidateTlbRange base npages).2 / 2 ^ 48 : ℕ) : ℤ) = npages % 2 ^ 16 := by
  have hc : ((npages % 2 ^ 64).toNat <<< 48) % 2 ^ 64 =
      ((npages % 2 ^ 64).toNat % 2 ^ 16) <<< 48 := by
    rw [Nat.shiftLeft_eq, Nat.shiftLeft_eq]
    omega
  rw [invalidateTlbRange, hc, shiftLeft_or _ (by decide)]
  simp only [mmuInvalidateEntry]
  omega

theorem mem_invalidatedPages_iff {w : ℕ × ℕ} {page : ℕ} :
    page ∈ invalidatedPages w ↔
      ∃ k < max 1 (w.2 / 2 ^ 48), (w.1 / pageSize % 2 ^ 45 + k) % 2 ^ 45 = page := by
  have hl : (if w.2 / 2 ^ 48 = 0 then 1 else w.2 / 2 ^ 48) = max 1 (w.2 / 2 ^ 48) := by
    split <;> omega
  simp only [invalidatedPages, hl, mem_map, List.mem_range]

/-- **What is invalidated is what was asked for exactly if** there are 1 to 65535 pages and the MMU
has numbers for all of them. -/
theorem invalidates_exactly_iff (base : ℕ) (npages : ℤ) :
    (∀ page, page ∈ invalidatedPages (invalidateTlbRange base npages) ↔
        base / pageSize ≤ page ∧ (page : ℤ) < (base / pageSize : ℕ) + npages) ↔
      (1 ≤ npages ∧ npages ≤ 65535) ∧ (base / pageSize : ℕ) + npages ≤ 2 ^ 45 := by
  have hlen := length_invalidateTlbRange base npages
  simp only [mem_invalidatedPages_iff]
  generalize (invalidateTlbRange base npages).2 / 2 ^ 48 = len at hlen ⊢
  have hbase : (invalidateTlbRange base npages).1 = base := rfl
  rw [hbase]
  generalize base / pageSize = p
  constructor
  · intro h
    -- the first page is asked for, the last one has a number, and there are not too many of them
    have hpos : 1 ≤ npages := by
      have hfirst := (h (p % 2 ^ 45 % 2 ^ 45)).mp ⟨0, by omega, rfl⟩
      omega
    obtain ⟨l, -, hl⟩ := (h (p + (npages - 1).toNat)).mpr ⟨by omega, by omega⟩
    have hfit : p + npages ≤ 2 ^ 45 := by omega
    refine ⟨⟨hpos, by_contra fun hgt => ?_⟩, hfit⟩
    obtain ⟨k, hk, heq⟩ := (h (p + 65535)).mpr ⟨by omega, by omega⟩
    omega
  · rintro ⟨⟨hpos, hle⟩, hfit⟩ page
    have heq : (len : ℤ) = npages := by omega
    constructor
    · rintro ⟨k, hk, rfl⟩
      omega
    · rintro ⟨hge, hlt⟩
      exact ⟨page - p, by omega, by omega⟩

/-- Of a chunk of the greatest size, only the first page is invalidated. -/
theorem chunk_not_invalidated : 1 ∉ invalidatedPages (invalidateTlbRange 0 umpmMaxPages) := by
  decide

end Tapasco.Svm
