import Tapasco.Lib.Copies
import Tapasco.Lib.Tiles
import Tapasco.SvmMemory

/-!
# The Page Transfers of Shared Virtual Memory

A transfer request to the PageDMA engine of a device moves several pages at once, so each migration
path cuts its pages into groups that follow one another in the memories involved. This module embeds
the loops of all five paths: RAM to device with the requests that clear pages without a source,
device to RAM, and the three ways to copy from one device to another, over the network, from
endpoint to endpoint, and through a buffer in host memory. `init_h2c_dma` and `init_c2h_dma` pass a
request to the engine.

Memory is taken page by page. A page of the host is named by the address at which the engine
reaches it, a page of a device by its address there, and device pages in arrays by their number
in the memory of the device. What the engine does with its commands is `carryOut`. Waiting for
the engine when 64 commands are pending does not change the requests and is left out.
-/

open Copies Tiles List
open List (range)

namespace Tapasco.Svm

def pageSize : ℕ := 4096

def pageDmaMaxNpages : ℕ := 4096

def devToDevDmaMaxNpages : ℕ := 1024

def vaddrMask : ℕ := 0xFFFFFFFFFFFF

def isContiguous (addr last : ℕ) : Bool :=
  (addr &&& vaddrMask) == (last &&& vaddrMask) + pageSize

def isContiguousPage (page last : ℕ) : Bool :=
  page == last + 1

/-! ### Commands of the engine -/

/-- A command written to the registers of the engine. -/
inductive Command where
  | h2c (hostAddr devAddr npages : ℕ) (clear network : Bool)
  | c2h (hostAddr devAddr npages : ℕ) (network : Bool)

/-- `npages_cmd`: how many of the pages of a request go into its next command. -/
def npagesCmd (npages : ℕ) : ℕ :=
  if npages > pageDmaMaxNpages then pageDmaMaxNpages else npages

theorem npagesCmd_of_le {npages : ℕ} (h : npages ≤ pageDmaMaxNpages) : npagesCmd npages = npages :=
  if_neg (not_lt.mpr h)

theorem npagesCmd_pos {npages : ℕ} (h : npages ≠ 0) : 0 < npagesCmd npages := by
  rw [npagesCmd]
  split
  · decide
  · exact Nat.pos_of_ne_zero h

/-- The lengths of the commands a request is written in. -/
def commandLengths (npages : ℕ) : List ℕ :=
  if npages = 0 then []
  else npagesCmd npages :: commandLengths (npages - npagesCmd npages)
termination_by npages
decreasing_by
  have := npagesCmd_pos ‹_›
  omega

/-- `init_h2c_dma`. The addresses are the same for all commands of a request. -/
def initH2cDma (hostAddr devAddr npages : ℕ) (clear network : Bool) : List Command :=
  (commandLengths npages).map fun n => .h2c hostAddr devAddr n clear network

def initC2hDma (hostAddr devAddr npages : ℕ) (network : Bool) : List Command :=
  (commandLengths npages).map fun n => .c2h hostAddr devAddr n network

/-! ### The migration paths -/

/-- `pfn_to_dev_addr`, for a page of a device by its number. -/
def devAddr (page : ℕ) : ℕ :=
  page * pageSize

/-- The search for contiguous pages of `svm_migrate_ram_to_dev`, from page `i` on: present pages
with contiguous addresses, or pages that are not present. -/
def ramToDevMore (present : ℕ → Bool) (dmaAddrs : ℕ → ℕ) (i j : ℕ) : Bool :=
  if present i then present j && isContiguous (dmaAddrs j) (dmaAddrs (j - 1)) else ! present j

/-- The requests of `svm_migrate_ram_to_dev`, to the pages from number `base` on. -/
def ramToDev (present : ℕ → Bool) (dmaAddrs : ℕ → ℕ) (base npages : ℕ) : List Command :=
  (groups (ramToDevMore present dmaAddrs) pageDmaMaxNpages npages 0).flatMap fun g =>
    initH2cDma (dmaAddrs g.1) (devAddr (base + g.1)) g.2 (! present g.1) false

/-- The test of `svm_migrate_dev_to_ram`. -/
def devToRamMore (dmaAddrs srcPages : ℕ → ℕ) (_ j : ℕ) : Bool :=
  isContiguous (dmaAddrs j) (dmaAddrs (j - 1)) && isContiguousPage (srcPages j) (srcPages (j - 1))

/-- The commands of a migration to RAM, one for each run of pages. -/
def devToRam (dmaAddrs srcPages : ℕ → ℕ) (npages : ℕ) : List Command :=
  (groups (devToRamMore dmaAddrs srcPages) pageDmaMaxNpages npages 0).flatMap fun g =>
    initC2hDma (dmaAddrs g.1) (devAddr (srcPages g.1)) g.2 false

/-- The test of the three methods between devices. -/
def srcMore (srcPages : ℕ → ℕ) (_ j : ℕ) : Bool :=
  isContiguousPage (srcPages j) (srcPages (j - 1))

/-- The length of the next request to receive pages from the network. -/
def receiveLen (npages i : ℕ) (h : i < npages) : {n : ℕ // 0 < n} :=
  ⟨min (npages - i) pageDmaMaxNpages, by
    rw [Nat.lt_min]
    exact ⟨Nat.sub_pos_of_lt h, by decide⟩⟩

/-- The requests of `copy_dev_to_dev_network`, to the pages from number `base` on. -/
def copyDevToDevNetwork (srcPages : ℕ → ℕ) (base npages : ℕ) : List Command :=
  ((tiles npages (receiveLen npages) 0).flatMap fun g =>
      initH2cDma 0 (devAddr base + g.1 * pageSize) g.2 false true) ++
    (groups (srcMore srcPages) pageDmaMaxNpages npages 0).flatMap fun g =>
      initC2hDma 0 (devAddr (srcPages g.1)) g.2 true

def copyDevToDevPcieE2e (srcPages : ℕ → ℕ) (rdmaBar base npages : ℕ) : List Command :=
  (groups (srcMore srcPages) pageDmaMaxNpages npages 0).flatMap fun g =>
    initC2hDma (rdmaBar + devAddr base + g.1 * pageSize) (devAddr (srcPages g.1)) g.2 false

/-- The groups of one round of `copy_dev_to_dev_buffered`, which fills the buffer with the pages
from `copied` on. -/
def bufferGroups (srcPages : ℕ → ℕ) (npages copied : ℕ) : List (ℕ × ℕ) :=
  groups (srcMore srcPages) pageDmaMaxNpages (min npages (copied + devToDevDmaMaxNpages)) copied

def moveCnt (srcPages : ℕ → ℕ) (npages copied : ℕ) : ℕ :=
  ((bufferGroups srcPages npages copied).map Prod.snd).sum

theorem moveCnt_eq (srcPages : ℕ → ℕ) (npages cp : ℕ) :
    moveCnt srcPages npages cp = min npages (cp + devToDevDmaMaxNpages) - cp := by
  have ht := @flatMap_groups (srcMore srcPages) pageDmaMaxNpages
    (min npages (cp + devToDevDmaMaxNpages)) cp _ id
  have hl := congrArg List.length ht
  simpa [moveCnt, bufferGroups, length_flatMap] using hl

def roundLen (srcPages : ℕ → ℕ) (npages copied : ℕ) (h : copied < npages) : {n : ℕ // 0 < n} :=
  ⟨moveCnt srcPages npages copied, by
    rw [moveCnt_eq, devToDevDmaMaxNpages]
    omega⟩

/-- One round of `copy_dev_to_dev_buffered`: the pages are moved to the buffer, group by group, and
from there to the destination with one request. -/
def bufferRound (srcPages : ℕ → ℕ) (bufAddr base npages copied : ℕ) : List Command :=
  ((bufferGroups srcPages npages copied).flatMap fun g =>
      initC2hDma (bufAddr + (g.1 - copied) * pageSize) (devAddr (srcPages g.1)) g.2 false) ++
    initH2cDma bufAddr (devAddr (base + copied)) (moveCnt srcPages npages copied) false false

def copyDevToDevBuffered (srcPages : ℕ → ℕ) (bufAddr base npages : ℕ) : List Command :=
  (tiles npages (roundLen srcPages npages) 0).flatMap fun r =>
    bufferRound srcPages bufAddr base npages r.1

/-! ### What the engine does -/

/-- A page: of the host, of the device that pages are taken from, or of the one they go to. -/
inductive Loc where
  | host (addr : ℕ)
  | source (addr : ℕ)
  | destination (addr : ℕ)
  deriving DecidableEq

/-- The addresses of `npages` pages in a row. -/
def pagesFrom (addr npages : ℕ) : List ℕ :=
  (List.range npages).map fun k => addr + k * pageSize

/-- The page copies that commands amount to, in order. Where an address of the host leads is a
parameter; `waiting` are the addresses at which the destination is ready to receive pages from the
network, the next one first. -/
def carryOut (route : ℕ → Loc) : List ℕ → List Command → List (Copy Loc)
  | _, [] => []
  | waiting, .h2c hostAddr devAddr npages clear network :: cmds =>
    if network then carryOut route (waiting ++ pagesFrom devAddr npages) cmds
    else
      ((List.range npages).map fun k =>
          ⟨.destination (devAddr + k * pageSize),
            if clear then none else some (route (hostAddr + k * pageSize))⟩) ++
        carryOut route waiting cmds
  | waiting, .c2h hostAddr devAddr npages network :: cmds =>
    if network then
      List.zipWith (fun slot page => ⟨.destination slot, some (.source page)⟩) waiting
          (pagesFrom devAddr npages) ++
        carryOut route (waiting.drop npages) cmds
    else
      ((List.range npages).map fun k =>
          ⟨route (hostAddr + k * pageSize), some (.source (devAddr + k * pageSize))⟩) ++
        carryOut route waiting cmds

/-- Addresses of the host in the window `rdma_bar` lead to the memory of the destination. -/
def barRoute (rdmaBar addr : ℕ) : Loc :=
  if rdmaBar ≤ addr ∧ addr < rdmaBar + physMemSize then .destination (addr - rdmaBar)
  else .host addr

/-! ### Commands of one request -/

theorem commandLengths_of_le {npages : ℕ} (hp : 0 < npages) (h : npages ≤ pageDmaMaxNpages) :
    commandLengths npages = [npages] := by
  rw [commandLengths, if_neg (ne_of_gt hp), npagesCmd_of_le h, Nat.sub_self,
    commandLengths, if_pos rfl]

theorem le_of_mem_commandLengths {npages n : ℕ} (h : n ∈ commandLengths npages) :
    n ≤ pageDmaMaxNpages := by
  fun_induction commandLengths npages with
  | case1 => exact absurd h not_mem_nil
  | case2 npages hne ih =>
    rcases mem_cons.mp h with rfl | h
    · rw [npagesCmd]
      split
      · exact le_refl _
      · exact not_lt.mp ‹_›
    · exact ih h

theorem lt_of_mem_commands {copy : ℕ → Copy Loc} (hc : Function.Injective copy) {npages k : ℕ}
    (h : copy k ∈ (commandLengths npages).flatMap fun n => (range n).map copy) :
    k < pageDmaMaxNpages := by
  obtain ⟨n, hn, hm⟩ := mem_flatMap.mp h
  obtain ⟨j, hj, heq⟩ := mem_map.mp hm
  rw [← hc heq]
  exact (mem_range.mp hj).trans_le (le_of_mem_commandLengths hn)

theorem perm_commandLengths_iff {copy : ℕ → Copy Loc} (hc : Function.Injective copy) (npages : ℕ) :
    ((commandLengths npages).flatMap fun n => (range n).map copy).Perm
      ((range npages).map copy) ↔ npages ≤ pageDmaMaxNpages := by
  constructor
  · intro h
    by_contra hgt
    -- the last page is behind the end of every command
    have hlast : copy (npages - 1) ∈ (range npages).map copy :=
      mem_map_of_mem (mem_range.mpr (by omega))
    have := lt_of_mem_commands hc (h.mem_iff.mpr hlast)
    omega
  · intro h
    rcases Nat.eq_zero_or_pos npages with rfl | hp
    · rw [commandLengths, if_pos rfl]
      rfl
    · rw [commandLengths_of_le hp h, flatMap_singleton]

/-- The pages of a request to the card, or from it, that the commands should move. -/
def h2cPage (hostAddr devAddr : ℕ) (clear : Bool) (k : ℕ) : Copy Loc :=
  ⟨.destination (devAddr + k * pageSize),
    if clear then none else some (.host (hostAddr + k * pageSize))⟩

def c2hPage (hostAddr devAddr k : ℕ) : Copy Loc :=
  ⟨.host (hostAddr + k * pageSize), some (.source (devAddr + k * pageSize))⟩

theorem carryOut_initH2cDma (hostAddr devAddr npages : ℕ) (clear : Bool) :
    carryOut .host [] (initH2cDma hostAddr devAddr npages clear false) =
      (commandLengths npages).flatMap fun n =>
        (range n).map (h2cPage hostAddr devAddr clear) := by
  rw [initH2cDma]
  induction commandLengths npages with
  | nil => rfl
  | cons n l ih =>
    rw [flatMap_cons, ← ih]
    rfl

theorem carryOut_initC2hDma (hostAddr devAddr npages : ℕ) :
    carryOut .host [] (initC2hDma hostAddr devAddr npages false) =
      (commandLengths npages).flatMap fun n => (range n).map (c2hPage hostAddr devAddr) := by
  rw [initC2hDma]
  induction commandLengths npages with
  | nil => rfl
  | cons n l ih =>
    rw [flatMap_cons, ← ih]
    rfl

theorem c2hPage_injective (hostAddr devAddr : ℕ) :
    Function.Injective (c2hPage hostAddr devAddr) := fun _ _ h =>
  Nat.eq_of_mul_eq_mul_right (by decide)
    (add_left_cancel (Loc.host.inj (congrArg Copy.dst h)))

/-- **A request moves each of its pages exactly once**, in either direction, exactly if it fits
into one command: the addresses are not advanced from command to command. -/
theorem request_exact_iff (hostAddr devAddr npages : ℕ) (clear : Bool) :
    ((carryOut .host [] (initC2hDma hostAddr devAddr npages false)).Perm
        ((List.range npages).map (c2hPage hostAddr devAddr)) ∧
      (carryOut .host [] (initH2cDma hostAddr devAddr npages clear false)).Perm
        ((List.range npages).map (h2cPage hostAddr devAddr clear))) ↔
      npages ≤ pageDmaMaxNpages := by
  have hh : Function.Injective (h2cPage hostAddr devAddr clear) := fun j k h =>
    Nat.eq_of_mul_eq_mul_right (by decide)
      (add_left_cancel (Loc.destination.inj (congrArg Copy.dst h)))
  rw [carryOut_initC2hDma, carryOut_initH2cDma,
    perm_commandLengths_iff (c2hPage_injective hostAddr devAddr), perm_commandLengths_iff hh,
    and_self]

/-- Of 4097 pages the last one is not moved. -/
theorem last_page_not_moved : c2hPage 0 0 4096 ∉ carryOut .host [] (initC2hDma 0 0 4097 false) := by
  rw [carryOut_initC2hDma]
  exact fun h => absurd (lt_of_mem_commands (c2hPage_injective 0 0) h) (by decide)

section

variable {route : ℕ → Loc} {waiting : List ℕ}

/-- The groups of a path fit into one command each. -/
def Fits (gs : List (ℕ × ℕ)) : Prop :=
  ∀ g ∈ gs, 0 < g.2 ∧ g.2 ≤ pageDmaMaxNpages

theorem fits_groups {more : ℕ → ℕ → Bool} {stop i : ℕ} :
    Fits (groups more pageDmaMaxNpages stop i) := fun _ hg =>
  ⟨groups_pos hg, groups_le_limit hg (by decide)⟩

variable {gs : List (ℕ × ℕ)}

theorem carryOut_h2c (hg : Fits gs) (host dev : ℕ × ℕ → ℕ) (clear : ℕ × ℕ → Bool)
    (cmds : List Command) :
    carryOut route waiting
        ((gs.flatMap fun g => initH2cDma (host g) (dev g) g.2 (clear g) false) ++ cmds) =
      (gs.flatMap fun g => (range g.2).map fun k =>
        ⟨.destination (dev g + k * pageSize),
          if clear g then none else some (route (host g + k * pageSize))⟩) ++
        carryOut route waiting cmds := by
  induction gs with
  | nil => rfl
  | cons g gs ih =>
    obtain ⟨⟨hp, hle⟩, hr⟩ := forall_mem_cons.mp hg
    rw [flatMap_cons, flatMap_cons, initH2cDma, commandLengths_of_le hp hle,
      append_assoc, append_assoc, ← ih hr]
    rfl

theorem carryOut_c2h (hg : Fits gs) (host dev : ℕ × ℕ → ℕ) (cmds : List Command) :
    carryOut route waiting
        ((gs.flatMap fun g => initC2hDma (host g) (dev g) g.2 false) ++ cmds) =
      (gs.flatMap fun g => (range g.2).map fun k =>
        ⟨route (host g + k * pageSize), some (.source (dev g + k * pageSize))⟩) ++
        carryOut route waiting cmds := by
  induction gs with
  | nil => rfl
  | cons g gs ih =>
    obtain ⟨⟨hp, hle⟩, hr⟩ := forall_mem_cons.mp hg
    rw [flatMap_cons, flatMap_cons, initC2hDma, commandLengths_of_le hp hle,
      append_assoc, append_assoc, ← ih hr]
    rfl

theorem carryOut_receive (hg : Fits gs) (dev : ℕ × ℕ → ℕ) (cmds : List Command) :
    carryOut route waiting
        ((gs.flatMap fun g => initH2cDma 0 (dev g) g.2 false true) ++ cmds) =
      carryOut route
        (waiting ++ gs.flatMap fun g => (range g.2).map fun k => dev g + k * pageSize)
        cmds := by
  induction gs generalizing waiting with
  | nil => rw [flatMap_nil, flatMap_nil, append_nil, nil_append]
  | cons g gs ih =>
    obtain ⟨⟨hp, hle⟩, hr⟩ := forall_mem_cons.mp hg
    rw [flatMap_cons, flatMap_cons, initH2cDma, commandLengths_of_le hp hle,
      append_assoc, ← append_assoc waiting, ← ih hr]
    rfl

theorem carryOut_send (hg : Fits gs) (slot : ℕ → ℕ) (dev : ℕ × ℕ → ℕ) :
    carryOut route (gs.flatMap fun g => (range g.2).map fun k => slot (g.1 + k))
        (gs.flatMap fun g => initC2hDma 0 (dev g) g.2 true) =
      gs.flatMap fun g => (range g.2).map fun k =>
        ⟨.destination (slot (g.1 + k)), some (.source (dev g + k * pageSize))⟩ := by
  induction gs with
  | nil => rfl
  | cons g gs ih =>
    obtain ⟨⟨hp, hle⟩, hr⟩ := forall_mem_cons.mp hg
    rw [flatMap_cons, flatMap_cons, flatMap_cons, initC2hDma, commandLengths_of_le hp hle]
    simp only [map_cons, map_nil, singleton_append, carryOut, if_true]
    -- the pages sent with this request fill the first slots that wait
    have hl : ((range g.2).map fun k => slot (g.1 + k)).length = g.2 := by simp
    have hf (rest : List ℕ) : List.zipWith
        (fun slot page => (⟨.destination slot, some (.source page)⟩ : Copy Loc))
        (((range g.2).map fun k => slot (g.1 + k)) ++ rest) (pagesFrom (dev g) g.2) =
        List.zipWith (fun slot page => ⟨.destination slot, some (.source page)⟩)
          ((range g.2).map fun k => slot (g.1 + k)) (pagesFrom (dev g) g.2) := by
      conv_lhs => rw [← append_nil (pagesFrom (dev g) g.2)]
      rw [zipWith_append (by simp [pagesFrom]), zipWith_nil_right, append_nil]
    rw [drop_left' hl, ih hr, hf, pagesFrom, zipWith_map, zipWith_self]

end

/-! ### Contiguous pages -/

theorem devAddr_add (page k : ℕ) : devAddr (page + k) = devAddr page + k * pageSize :=
  add_mul page k pageSize

theorem devAddr_injective : Function.Injective devAddr := fun _ _ h =>
  Nat.eq_of_mul_eq_mul_right (by decide) h

theorem isContiguousPage_iff {page last : ℕ} : isContiguousPage page last ↔ page = last + 1 :=
  beq_iff_eq

theorem forall_eq_add_iff {a : ℕ → ℕ} {i n step : ℕ} :
    (∀ k < n, a (i + k) = a i + k * step) ↔
      ∀ k, 0 < k → k < n → a (i + k) = a (i + k - 1) + step := by
  constructor
  · intro h k hp hk
    obtain ⟨k, rfl⟩ := Nat.exists_eq_add_of_lt hp
    rw [zero_add] at hk ⊢
    rw [h (k + 1) hk, ← add_assoc, Nat.add_sub_cancel, h k (Nat.lt_of_succ_lt hk),
      Nat.succ_mul, add_assoc]
  · intro h k hk
    induction k with
    | zero => simp
    | succ k ih =>
      rw [h (k + 1) (Nat.succ_pos k) hk, ← add_assoc, Nat.add_sub_cancel,
        ih (Nat.lt_of_succ_lt hk), Nat.succ_mul, add_assoc]

theorem devAddr_of_mem_groups {more : ℕ → ℕ → Bool} {srcPages : ℕ → ℕ} {stop i : ℕ}
    {g : ℕ × ℕ} (hg : g ∈ groups more pageDmaMaxNpages stop i)
    (hm : ∀ i j, more i j → isContiguousPage (srcPages j) (srcPages (j - 1))) {k : ℕ}
    (hk : k < g.2) : devAddr (srcPages g.1) + k * pageSize = devAddr (srcPages (g.1 + k)) := by
  have hs : ∀ k, 0 < k → k < g.2 → srcPages (g.1 + k) = srcPages (g.1 + k - 1) + 1 :=
    fun k hp hk => isContiguousPage_iff.mp (hm _ _ (more_of_mem_groups hg hp hk))
  rw [forall_eq_add_iff.mpr hs k hk, mul_one, devAddr_add]

/-! ### From one device to another -/

/-- Room for pages in the memory of a device, as `allocate_device_memory` returns it. -/
structure DeviceBlock (npages : ℕ) where
  base : ℕ
  fits : devAddr (base + npages) ≤ physMemSize

section

variable {npages : ℕ} (srcPages : ℕ → ℕ) (block : DeviceBlock npages)

/-- The page that page `i` is to be copied from. -/
def srcLoc (i : ℕ) : Option Loc :=
  some (.source (devAddr (srcPages i)))

/-- The page that page `i` is to be copied to. -/
def dstLoc (i : ℕ) : Loc :=
  .destination (devAddr (block.base + i))

variable {srcPages block}

theorem dstLoc_inj {i j : ℕ} (h : dstLoc block i = dstLoc block j) : i = j :=
  add_left_cancel (devAddr_injective (Loc.destination.inj h))

theorem exact_of_groups {cs : List (Copy Loc)}
    (hcs : cs = (groups (srcMore srcPages) pageDmaMaxNpages npages 0).flatMap fun g =>
      (range g.2).map fun k =>
        ⟨dstLoc block (g.1 + k), some (.source (devAddr (srcPages g.1) + k * pageSize))⟩) :
    Exact (fun _ => false) cs npages (srcLoc srcPages) (dstLoc block) := by
  have hl : cs = (range npages).map fun i => ⟨dstLoc block i, srcLoc srcPages i⟩ := by
    rw [hcs, ← @flatMap_groups_zero (srcMore srcPages) pageDmaMaxNpages npages]
    refine (flatMap_tiles_eq_iff _ _ _).mpr fun g hg k hk => ?_
    rw [devAddr_of_mem_groups hg (fun _ _ h => h) hk]
    rfl
  rw [hl, exact_map_iff (srcLoc srcPages) (fun i _ j _ h => dstLoc_inj h)
    fun i _ j _ h => by simp [srcLoc, dstLoc] at h]
  exact fun i _ => rfl

theorem network_exact :
    Exact (fun _ => false) (carryOut .host [] (copyDevToDevNetwork srcPages block.base npages))
      npages (srcLoc srcPages) (dstLoc block) := by
  refine exact_of_groups ?_
  have hf : Fits (tiles npages (receiveLen npages) 0) := by
    intro g hg
    obtain ⟨-, -, h, heq⟩ := mem_tiles (fun i h => by simp only [receiveLen]; omega) hg
    rw [heq]
    exact ⟨(receiveLen npages g.1 h).2, min_le_right _ _⟩
  -- the pages arrive one after the other, whatever groups they are sent in
  have hs := flatMap_tiles_zero (fun i h => show i + (receiveLen npages i h : ℕ) ≤ npages
    by simp only [receiveLen]; omega) fun i => devAddr (block.base + i)
  have hex : ((tiles npages (receiveLen npages) 0).flatMap fun g =>
      (range g.2).map fun k => devAddr block.base + g.1 * pageSize + k * pageSize) =
      (groups (srcMore srcPages) pageDmaMaxNpages npages 0).flatMap fun g =>
        (range g.2).map fun k => devAddr (block.base + (g.1 + k)) := by
    rw [flatMap_groups_zero fun i => devAddr (block.base + i), ← hs]
    refine (flatMap_tiles_eq_iff _ _ _).mpr fun g _ k _ => ?_
    rw [devAddr_add, add_mul, add_assoc]
  rw [copyDevToDevNetwork, carryOut_receive hf, nil_append, hex]
  exact carryOut_send fits_groups (fun i => devAddr (block.base + i)) _

theorem barRoute_eq (rdmaBar : ℕ) {i : ℕ} (hi : i < npages) :
    barRoute rdmaBar (rdmaBar + devAddr (block.base + i)) = dstLoc block i := by
  have hlt : devAddr (block.base + i) < physMemSize := by
    refine lt_of_lt_of_le ?_ block.fits
    exact Nat.mul_lt_mul_of_pos_right (by omega) (by decide)
  rw [barRoute, if_pos ⟨Nat.le_add_right _ _, by omega⟩, Nat.add_sub_cancel_left]
  rfl

theorem e2e_exact (rdmaBar : ℕ) :
    Exact (fun _ => false)
      (carryOut (barRoute rdmaBar) [] (copyDevToDevPcieE2e srcPages rdmaBar block.base npages))
      npages (srcLoc srcPages) (dstLoc block) := by
  refine exact_of_groups ?_
  have hl := @carryOut_c2h (barRoute rdmaBar) []
    (groups (srcMore srcPages) pageDmaMaxNpages npages 0) fits_groups
    (fun g => rdmaBar + devAddr block.base + g.1 * pageSize) (fun g => devAddr (srcPages g.1)) []
  rw [append_nil, carryOut, append_nil] at hl
  rw [copyDevToDevPcieE2e, hl]
  refine (flatMap_tiles_eq_iff _ _ _).mpr fun g hg k hk => ?_
  obtain ⟨-, hs, -⟩ := mem_groups hg
  rw [← barRoute_eq rdmaBar (show g.1 + k < npages by omega), devAddr_add,
    add_mul, ← add_assoc, ← add_assoc]

/-! #### Through a buffer in host memory -/

def inBuffer (bufAddr npages : ℕ) : Loc → Bool
  | .host a => decide (bufAddr ≤ a ∧ a < bufAddr + min npages devToDevDmaMaxNpages * pageSize)
  | _ => false

/-- The copies of one round: to the buffer, and from there to the destination. -/
def roundCopies (srcPages : ℕ → ℕ) (block : DeviceBlock npages) (bufAddr copied n : ℕ) :
    List (Copy Loc) :=
  ((List.range n).map fun j => ⟨.host (bufAddr + j * pageSize), srcLoc srcPages (copied + j)⟩) ++
    (List.range n).map fun j =>
      ⟨dstLoc block (copied + j), some (.host (bufAddr + j * pageSize))⟩

theorem moveCnt_le (cp : ℕ) : moveCnt srcPages npages cp ≤ min npages devToDevDmaMaxNpages := by
  rw [moveCnt_eq]
  omega

theorem add_roundLen_le (i : ℕ) (h : i < npages) :
    i + (roundLen srcPages npages i h : ℕ) ≤ npages := by
  simp only [roundLen, moveCnt_eq]
  omega

variable {bufAddr : ℕ}

theorem carryOut_bufferRound {cp : ℕ} (hlt : cp < npages) (cmds : List Command) :
    carryOut .host [] (bufferRound srcPages bufAddr block.base npages cp ++ cmds) =
      roundCopies srcPages block bufAddr cp (moveCnt srcPages npages cp) ++
        carryOut .host [] cmds := by
  have hp : 0 < moveCnt srcPages npages cp := (roundLen srcPages npages cp hlt).2
  have hle : moveCnt srcPages npages cp ≤ pageDmaMaxNpages :=
    (moveCnt_le cp).trans ((min_le_right _ _).trans (by decide))
  have hfi : ((bufferGroups srcPages npages cp).flatMap fun g =>
      (range g.2).map fun k => (⟨.host (bufAddr + (g.1 - cp) * pageSize + k * pageSize),
        some (.source (devAddr (srcPages g.1) + k * pageSize))⟩ : Copy Loc)) =
      (range (moveCnt srcPages npages cp)).map fun j =>
        ⟨.host (bufAddr + j * pageSize), srcLoc srcPages (cp + j)⟩ := by
    have ht := @flatMap_groups (srcMore srcPages) pageDmaMaxNpages
      (min npages (cp + devToDevDmaMaxNpages)) cp _ fun i =>
        (⟨.host (bufAddr + (i - cp) * pageSize), srcLoc srcPages i⟩ : Copy Loc)
    simp only [Nat.add_sub_cancel_left] at ht
    rw [moveCnt_eq, ← ht]
    refine (flatMap_tiles_eq_iff _ _ _).mpr fun g hg k hk => ?_
    have hge := (mem_groups hg).1
    rw [devAddr_of_mem_groups hg (fun _ _ h => h) hk, Nat.sub_add_comm hge, add_mul,
      ← add_assoc]
    rfl
  have hf : Fits (bufferGroups srcPages npages cp) := fits_groups
  rw [bufferRound, append_assoc, carryOut_c2h hf, hfi, initH2cDma,
    commandLengths_of_le hp hle, roundCopies, append_assoc]
  refine congrArg₂ (· ++ ·) rfl ?_
  simp only [map_cons, map_nil, singleton_append, carryOut, Bool.false_eq_true, if_false]
  refine congrArg (· ++ carryOut .host [] cmds) (map_congr_left fun j _ => ?_)
  rw [dstLoc, ← add_assoc, devAddr_add (block.base + cp)]

theorem carryOut_buffered :
    carryOut .host [] (copyDevToDevBuffered srcPages bufAddr block.base npages) =
      (tiles npages (roundLen srcPages npages) 0).flatMap fun r =>
        roundCopies srcPages block bufAddr r.1 r.2 := by
  rw [copyDevToDevBuffered]
  generalize 0 = i
  induction i using tiles.induct npages (roundLen srcPages npages) with
  | case1 i h ih =>
    rw [tiles_of_lt h, flatMap_cons, flatMap_cons, carryOut_bufferRound h, ih]
    rfl
  | case2 i h => rw [tiles_of_le (not_lt.mp h)]; rfl

theorem dst_of_mem_roundCopies {cp n : ℕ} {c : Copy Loc}
    (hc : c ∈ roundCopies srcPages block bufAddr cp n) :
    (∃ j < n, c.dst = .host (bufAddr + j * pageSize)) ∨ ∃ j < n, c.dst = dstLoc block (cp + j) := by
  rcases mem_append.mp hc with hc | hc
  · obtain ⟨j, hj, rfl⟩ := mem_map.mp hc
    exact .inl ⟨j, List.mem_range.mp hj, rfl⟩
  · obtain ⟨j, hj, rfl⟩ := mem_map.mp hc
    exact .inr ⟨j, List.mem_range.mp hj, rfl⟩

theorem apply_roundCopies {γ : Type} (blank : γ) (m : Loc → γ) {cp n j : ℕ} (hj : j < n) :
    apply blank m (roundCopies srcPages block bufAddr cp n) (dstLoc block (cp + j)) =
      m (.source (devAddr (srcPages (cp + j)))) := by
  rw [roundCopies, apply_append]
  have hi : ∀ i < n, ∀ j < n, dstLoc block (cp + i) = dstLoc block (cp + j) → i = j :=
    fun i _ j _ h => add_left_cancel (dstLoc_inj h)
  have hb : ∀ i < n, ∀ j < n,
      Loc.host (bufAddr + i * pageSize) = .host (bufAddr + j * pageSize) → i = j := by
    intro i _ j _ h
    rw [Loc.host.injEq, add_left_cancel_iff] at h
    exact Nat.eq_of_mul_eq_mul_right (by decide) h
  rw [apply_map_range hi (fun i _ j _ h => by simp [dstLoc] at h) hj]
  exact apply_map_range (d := fun j => Loc.host (bufAddr + j * pageSize)) hb
    (fun i _ j _ h => by simp [srcLoc] at h) hj

theorem apply_rounds {γ : Type} (blank : γ) (m : Loc → γ) {i j : ℕ} (hij : i ≤ j)
    (hj : j < npages) :
    apply blank m ((tiles npages (roundLen srcPages npages) i).flatMap fun r =>
        roundCopies srcPages block bufAddr r.1 r.2) (dstLoc block j) =
      m (.source (devAddr (srcPages j))) := by
  induction i using tiles.induct npages (roundLen srcPages npages) generalizing m with
  | case1 i h ih =>
    rw [tiles_of_lt h, flatMap_cons, apply_append]
    by_cases hlt : j < i + roundLen srcPages npages i h
    · -- the page goes with this round, and later rounds leave it alone
      obtain ⟨k, rfl⟩ := Nat.exists_eq_add_of_le hij
      rw [apply_of_not_mem, apply_roundCopies blank m (by omega)]
      intro c hc heq
      obtain ⟨r, hr, hc⟩ := mem_flatMap.mp hc
      have hge := (mem_tiles add_roundLen_le hr).1
      rcases dst_of_mem_roundCopies hc with ⟨j, -, hd⟩ | ⟨j, -, hd⟩
      · rw [hd] at heq
        simp [dstLoc] at heq
      · have := dstLoc_inj (hd.symm.trans heq)
        omega
    · rw [ih _ (not_lt.mp hlt)]
      refine apply_of_not_mem fun c hc heq => ?_
      rcases dst_of_mem_roundCopies hc with ⟨j, -, hd⟩ | ⟨j, -, hd⟩
      · rw [hd] at heq
        exact Loc.noConfusion heq
      · rw [hd] at heq
        simp [dstLoc] at heq
  | case2 i h => omega

/-- **Copying through a buffer** is exact, apart from the buffer. -/
theorem buffered_exact (bufAddr : ℕ) :
    Exact (inBuffer bufAddr npages)
      (carryOut .host [] (copyDevToDevBuffered srcPages bufAddr block.base npages))
      npages (srcLoc srcPages) (dstLoc block) := by
  rw [carryOut_buffered]
  refine ⟨?_, fun blank m i hi => apply_rounds blank m (Nat.zero_le i) hi⟩
  rw [← flatMap_tiles_zero add_roundLen_le (dstLoc block), map_flatMap, filter_flatMap]
  refine flatMap_congr fun r hr => ?_
  obtain ⟨-, -, h, heq⟩ := mem_tiles add_roundLen_le hr
  have hle : r.2 ≤ min npages devToDevDmaMaxNpages := heq ▸ moveCnt_le r.1
  rw [roundCopies, map_append, filter_append, map_map, map_map]
  have hb : (((range r.2).map (Copy.dst ∘ fun j =>
      (⟨.host (bufAddr + j * pageSize), srcLoc srcPages (r.1 + j)⟩ : Copy Loc))).filter
        fun l => ! inBuffer bufAddr npages l) = [] := by
    rw [filter_eq_nil_iff]
    intro l hl
    obtain ⟨j, hj, rfl⟩ := mem_map.mp hl
    have hlt : j * pageSize < min npages devToDevDmaMaxNpages * pageSize :=
      Nat.mul_lt_mul_of_pos_right ((List.mem_range.mp hj).trans_le hle) (by decide)
    simp [inBuffer, hlt]
  rw [hb, nil_append, filter_eq_self.mpr]
  · rfl
  · intro l hl
    obtain ⟨j, -, rfl⟩ := mem_map.mp hl
    rfl

end

/-! ### Between RAM and a device -/

section

variable {npages : ℕ} (present : ℕ → Bool) (dmaAddrs srcPages : ℕ → ℕ) (block : DeviceBlock npages)

/-- The page of the host that page `i` is to be copied from, or none. -/
def ramLoc (i : ℕ) : Option Loc :=
  if present i then some (.host (dmaAddrs i)) else none

/-- Page `j` follows the page before it, as far as the driver can tell. -/
def ramFollows (j : ℕ) : Bool :=
  ramToDevMore present dmaAddrs (j - 1) j

/-- Where the driver takes a page to follow the one before it, it does. The requests are cut
every `PAGE_DMA_MAX_NPAGES` pages, and it does not matter there. -/
def RamSeparated (npages : ℕ) : Prop :=
  ∀ j < npages, ¬ pageDmaMaxNpages ∣ rank (ramFollows present dmaAddrs) j → present j →
    dmaAddrs j = dmaAddrs (j - 1) + pageSize

variable {present dmaAddrs srcPages block}

theorem present_of_more {i j : ℕ} (h : ramToDevMore present dmaAddrs i j) :
    present j = present i := by
  rw [ramToDevMore] at h
  cases hi : present i
  · simpa [hi] using h
  · rw [hi, if_pos rfl, Bool.and_eq_true] at h
    exact h.1

theorem groups_ramToDev :
    groups (ramToDevMore present dmaAddrs) pageDmaMaxNpages npages 0 =
      groups (fun _ => ramFollows present dmaAddrs) pageDmaMaxNpages npages 0 := by
  refine groups_congr fun i k hp hb => ?_
  have hpr : present (i + k - 1) = present i := by
    obtain ⟨k, rfl⟩ := Nat.exists_eq_add_of_lt hp
    rw [zero_add, ← add_assoc, Nat.add_sub_cancel]
    rcases Nat.eq_zero_or_pos k with rfl | hk
    · rfl
    · exact present_of_more (hb k hk (by omega))
  rw [ramFollows, ramToDevMore, ramToDevMore, hpr]

def ramGroups (present : ℕ → Bool) (dmaAddrs : ℕ → ℕ) (npages : ℕ) : List (ℕ × ℕ) :=
  groups (fun _ => ramFollows present dmaAddrs) pageDmaMaxNpages npages 0

theorem ramToDev_copies :
    ∃ s : ℕ → Option Loc,
      carryOut .host [] (ramToDev present dmaAddrs block.base npages) =
          ((range npages).map fun i => ⟨dstLoc block i, s i⟩) ∧
        ∀ g ∈ ramGroups present dmaAddrs npages, ∀ k < g.2,
          present (g.1 + k) = present g.1 ∧
            s (g.1 + k) =
              if present g.1 then some (.host (dmaAddrs g.1 + k * pageSize)) else none := by
  have hgr := @groups_ramToDev npages present dmaAddrs
  obtain ⟨s, hs⟩ := @exists_index_groups (ramToDevMore present dmaAddrs) pageDmaMaxNpages npages 0 _
    fun g k => if present g.1 then some (Loc.host (dmaAddrs g.1 + k * pageSize)) else none
  refine ⟨s, ?_, fun g hg k hk => ?_⟩
  · have ho := @carryOut_h2c .host []
      (groups (ramToDevMore present dmaAddrs) pageDmaMaxNpages npages 0) fits_groups
      (fun g => dmaAddrs g.1) (fun g => devAddr (block.base + g.1)) (fun g => ! present g.1) []
    rw [append_nil, carryOut, append_nil] at ho
    rw [ramToDev, ho,
      ← @flatMap_groups_zero (ramToDevMore present dmaAddrs) pageDmaMaxNpages npages]
    refine (flatMap_tiles_eq_iff _ _ _).mpr fun g hg k hk => ?_
    rw [hs g hg k hk, dstLoc, ← add_assoc, devAddr_add (block.base + g.1)]
    cases present g.1 <;> rfl
  · rw [ramGroups, ← hgr] at hg
    refine ⟨?_, hs g hg k hk⟩
    rcases Nat.eq_zero_or_pos k with rfl | hp
    · rfl
    · exact present_of_more (more_of_mem_groups hg hp hk)

theorem ramToDev_exact_iff :
    Exact (fun _ => false) (carryOut .host [] (ramToDev present dmaAddrs block.base npages)) npages
        (ramLoc present dmaAddrs) (dstLoc block) ↔ RamSeparated present dmaAddrs npages := by
  obtain ⟨s, hl, hs⟩ := @ramToDev_copies npages present dmaAddrs block
  have hin {i : ℕ} (hi : i < npages) :
      ∃ g ∈ ramGroups present dmaAddrs npages, ∃ k < g.2, i = g.1 + k :=
    exists_mem_tiles add_run_le (Nat.zero_le i) hi
  have hsr : ∀ i < npages, ∀ j < npages, s i ≠ some (dstLoc block j) := by
    intro i hi j _
    obtain ⟨g, hg, k, hk, rfl⟩ := hin hi
    rw [(hs g hg k hk).2]
    split <;> simp [dstLoc]
  rw [hl, exact_map_iff s (fun i _ j _ h => dstLoc_inj h) hsr]
  rw [RamSeparated, ← forall_inner_iff_zero (by decide)]
  constructor
  · intro h g hg k hpo hk hpr
    rw [(hs g hg k hk).1] at hpr
    refine forall_eq_add_iff.mp (fun k hk => ?_) k hpo hk
    have heq := h (g.1 + k) (by have := (mem_groups hg).2.1; omega)
    obtain ⟨hp, hsk⟩ := hs g hg k hk
    rw [hsk, ramLoc, hp, if_pos hpr, if_pos hpr] at heq
    exact (Loc.host.inj (Option.some.inj heq)).symm
  · intro h i hi
    obtain ⟨g, hg, k, hk, rfl⟩ := hin hi
    obtain ⟨hp, hsk⟩ := hs g hg k hk
    rw [hsk, ramLoc, hp]
    cases hpr : present g.1
    · rfl
    · have hr := forall_eq_add_iff.mpr fun k hpo hk =>
        h g hg k hpo hk ((hs g hg k hk).1.trans hpr)
      rw [hr k hk]

/-- Different pages of the host. -/
structure HostPages (npages : ℕ) where
  addr : ℕ → ℕ
  inj : ∀ i < npages, ∀ j < npages, addr i = addr j → i = j

/-- Page `j` follows the page before it in both memories, as far as the driver can tell. -/
def devFollows (dmaAddrs srcPages : ℕ → ℕ) (j : ℕ) : Bool :=
  devToRamMore dmaAddrs srcPages 0 j

/-- Where the driver takes a page to follow the one before it, it does in host memory. -/
def DevSeparated (dmaAddrs srcPages : ℕ → ℕ) (npages : ℕ) : Prop :=
  ∀ j < npages, ¬ pageDmaMaxNpages ∣ rank (devFollows dmaAddrs srcPages) j →
    dmaAddrs j = dmaAddrs (j - 1) + pageSize

/-- **From a device to RAM**: the transfer is exact exactly when the pages are separated. -/
theorem devToRam_exact_iff (pages : HostPages npages) :
    Exact (fun _ => false) (carryOut .host [] (devToRam pages.addr srcPages npages)) npages
        (srcLoc srcPages) (fun i => .host (pages.addr i)) ↔
      DevSeparated pages.addr srcPages npages := by
  have hl : carryOut .host [] (devToRam pages.addr srcPages npages) =
      (groups (devToRamMore pages.addr srcPages) pageDmaMaxNpages npages 0).flatMap fun g =>
        (range g.2).map fun k =>
          ⟨.host (pages.addr g.1 + k * pageSize), srcLoc srcPages (g.1 + k)⟩ := by
    have ho := @carryOut_c2h .host []
      (groups (devToRamMore pages.addr srcPages) pageDmaMaxNpages npages 0) fits_groups
      (fun g => pages.addr g.1) (fun g => devAddr (srcPages g.1)) []
    rw [append_nil, carryOut, append_nil] at ho
    rw [devToRam, ho]
    refine (flatMap_tiles_eq_iff _ _ _).mpr fun g hg k hk => ?_
    rw [devAddr_of_mem_groups hg (fun _ _ h => (Bool.and_eq_true _ _ ▸ h).2) hk]
    rfl
  rw [hl, DevSeparated, ← forall_inner_iff_zero (by decide)]
  constructor
  · intro h g hg
    have hw := h.map_dst
    rw [map_flatMap,
      ← @flatMap_groups_zero (devToRamMore pages.addr srcPages) pageDmaMaxNpages npages] at hw
    simp only [map_map] at hw
    refine forall_eq_add_iff.mp fun k hk => ?_
    exact (Loc.host.inj ((flatMap_tiles_eq_iff _ _ _).mp hw g hg k hk)).symm
  · intro h
    have hm : ((groups (devToRamMore pages.addr srcPages) pageDmaMaxNpages npages 0).flatMap
        fun g => (range g.2).map fun k =>
          (⟨.host (pages.addr g.1 + k * pageSize), srcLoc srcPages (g.1 + k)⟩ : Copy Loc)) =
        (range npages).map fun i => ⟨.host (pages.addr i), srcLoc srcPages i⟩ := by
      rw [← @flatMap_groups_zero (devToRamMore pages.addr srcPages) pageDmaMaxNpages npages]
      refine (flatMap_tiles_eq_iff _ _ _).mpr fun g hg k hk => ?_
      rw [forall_eq_add_iff.mpr (h g hg) k hk]
    rw [hm]
    refine (exact_map_iff (srcLoc srcPages) ?_ ?_).mpr fun i _ => rfl
    · exact fun i hi j hj heq => pages.inj i hi j hj (Loc.host.inj heq)
    · intro i _ j _ heq
      simp [srcLoc] at heq

/-! ### Addresses below 2 ^ 48 -/

theorem and_vaddrMask (x : ℕ) : x &&& vaddrMask = x % 2 ^ 48 :=
  Nat.and_two_pow_sub_one_eq_mod x 48

theorem isContiguous_iff {addr last : ℕ} (ha : addr < 2 ^ 48) (hl : last < 2 ^ 48) :
    isContiguous addr last ↔ addr = last + pageSize := by
  rw [isContiguous, and_vaddrMask, and_vaddrMask, Nat.mod_eq_of_lt ha, Nat.mod_eq_of_lt hl]
  exact beq_iff_eq

/-- Where the engine reaches all pages below address 2 ^ 48 the driver is not mistaken. -/
theorem ramSeparated_of_lt (h : ∀ j < npages, dmaAddrs j < 2 ^ 48) :
    RamSeparated present dmaAddrs npages := by
  intro j hj hr hpr
  have hf := adj_of_not_dvd_rank hr
  have hp := present_of_more hf
  rw [ramFollows, ramToDevMore, if_pos (hp ▸ hpr), Bool.and_eq_true] at hf
  exact (isContiguous_iff (h j hj) (h _ (by omega))).mp hf.2

theorem devSeparated_of_lt (h : ∀ j < npages, dmaAddrs j < 2 ^ 48) :
    DevSeparated dmaAddrs srcPages npages := by
  intro j hj hr
  have hf := adj_of_not_dvd_rank hr
  rw [devFollows, devToRamMore, Bool.and_eq_true] at hf
  exact (isContiguous_iff (h j hj) (h _ (by omega))).mp hf.1

/-- The device that pages were copied to is the one they are taken from next. -/
def asSource {γ : Type} (m : Loc → γ) : Loc → γ
  | .source addr => m (.destination addr)
  | l => m l

/-- **To a device, to another one and back to RAM**: pages keep their contents and missing pages
become blank ones, by whichever exact transfer they are copied between the devices, where the engine
reaches all pages of the host below address 2 ^ 48. -/
theorem content_migrated_back (h : ∀ j < npages, dmaAddrs j < 2 ^ 48) (a b : DeviceBlock npages)
    {scratch : Loc → Bool} {cs : List (Copy Loc)}
    (hcs : Exact scratch cs npages (srcLoc (a.base + ·)) (dstLoc b)) (back : HostPages npages)
    (hback : ∀ j < npages, back.addr j < 2 ^ 48) {γ : Type} (blank : γ) (m : Loc → γ) :
    let onA := apply blank m (carryOut .host [] (ramToDev present dmaAddrs a.base npages))
    let onB := apply blank (asSource onA) cs
    ∀ i < npages,
      apply blank (asSource onB) (carryOut .host [] (devToRam back.addr (b.base + ·) npages))
        (.host (back.addr i)) = if present i then m (.host (dmaAddrs i)) else blank := by
  intro onA onB i hi
  calc
    _ = onB (dstLoc b i) :=
      ((devToRam_exact_iff back).mpr (devSeparated_of_lt hback)).content blank _ i hi
    _ = onA (dstLoc a i) := hcs.content blank _ i hi
    _ = (ramLoc present dmaAddrs i).elim blank m :=
      (ramToDev_exact_iff.mpr (ramSeparated_of_lt h)).content blank m i hi
    _ = if present i then m (.host (dmaAddrs i)) else blank := by
      rw [ramLoc]
      split <;> rfl

end

/-- **The transfers of the five paths**: for any number of pages and any placement, the paths from
and to RAM copy each page to its place once and write nothing else exactly when no page is taken to
follow the page before it by the lower 48 bits of its address alone; the three methods between
devices always do, and have the same effect. -/
theorem transfers_exact_iff {npages : ℕ} (present : ℕ → Bool) (dmaAddrs srcPages : ℕ → ℕ)
    (pages : HostPages npages) (block : DeviceBlock npages) (rdmaBar bufAddr : ℕ) :
    (Exact (fun _ => false) (carryOut .host [] (ramToDev present dmaAddrs block.base npages)) npages
        (ramLoc present dmaAddrs) (dstLoc block) ↔ RamSeparated present dmaAddrs npages) ∧
      (Exact (fun _ => false) (carryOut .host [] (devToRam pages.addr srcPages npages)) npages
        (srcLoc srcPages) (fun i => .host (pages.addr i)) ↔
          DevSeparated pages.addr srcPages npages) ∧
      Exact (fun _ => false)
        (carryOut .host [] (copyDevToDevNetwork srcPages block.base npages)) npages
        (srcLoc srcPages) (dstLoc block) ∧
      Exact (fun _ => false)
        (carryOut (barRoute rdmaBar) [] (copyDevToDevPcieE2e srcPages rdmaBar block.base npages))
        npages (srcLoc srcPages) (dstLoc block) ∧
      Exact (inBuffer bufAddr npages)
        (carryOut .host [] (copyDevToDevBuffered srcPages bufAddr block.base npages)) npages
        (srcLoc srcPages) (dstLoc block) ∧
      ∀ {γ : Type} (blank : γ) (m : Loc → γ) (l : Loc), inBuffer bufAddr npages l = false →
        apply blank m (carryOut .host [] (copyDevToDevNetwork srcPages block.base npages)) l =
            apply blank m (carryOut (barRoute rdmaBar) []
              (copyDevToDevPcieE2e srcPages rdmaBar block.base npages)) l ∧
          apply blank m (carryOut .host [] (copyDevToDevNetwork srcPages block.base npages)) l =
            apply blank m (carryOut .host []
              (copyDevToDevBuffered srcPages bufAddr block.base npages)) l := by
  refine ⟨ramToDev_exact_iff, devToRam_exact_iff pages, network_exact, e2e_exact rdmaBar,
    buffered_exact bufAddr, fun blank m l hl => ?_⟩
  exact ⟨network_exact.apply_eq (e2e_exact rdmaBar) blank m rfl rfl,
    network_exact.apply_eq (buffered_exact bufAddr) blank m rfl hl⟩

/-- Two pages of the host whose addresses follow one another in the lower 48 bits only. -/
def farPages (i : ℕ) : ℕ :=
  if i = 0 then 4096 else 2 ^ 48 + 8192

/-- Room for two pages at the start of the device memory. -/
def twoPages : DeviceBlock 2 :=
  ⟨0, by decide⟩

/-- The second of two pages is copied from another address than its own. -/
theorem wrong_page_above_48_bits :
    carryOut .host [] (ramToDev (fun _ => true) farPages 0 2) =
        [⟨.destination 0, some (.host 4096)⟩, ⟨.destination 4096, some (.host 8192)⟩] ∧
      farPages 1 ≠ 8192 ∧
      ¬ Exact (fun _ => false)
        (carryOut .host [] (ramToDev (fun _ => true) farPages twoPages.base 2)) 2
        (ramLoc (fun _ => true) farPages) (dstLoc twoPages) := by
  refine ⟨by decide +kernel, by decide, fun h => ?_⟩
  have hsep := ramToDev_exact_iff.mp h
  exact absurd (hsep 1 (by decide) (by decide +kernel) rfl) (by decide)

/-- The second of two pages, over the network. -/
theorem content_migrated_back_second :
    let onA := apply 0 (fun | .host addr => addr | _ => 0)
      (carryOut .host [] (ramToDev (fun _ => true) (4096 * ·) 0 2))
    let onB := apply 0 (asSource onA) (carryOut .host [] (copyDevToDevNetwork (0 + ·) 0 2))
    apply 0 (asSource onB) (carryOut .host [] (devToRam (8192 * ·) (0 + ·) 2)) (.host 8192) =
      4096 :=
  content_migrated_back (by decide) twoPages twoPages network_exact
    ⟨(8192 * ·), fun _ _ _ _ => Nat.eq_of_mul_eq_mul_left (by decide)⟩ (by decide) 0 _ 1 (by decide)

end Tapasco.Svm
