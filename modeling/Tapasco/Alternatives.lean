import Mathlib.Data.Int.Notation
import Mathlib.Data.List.Dedup
import Mathlib.Data.List.Induction
import Mathlib.Data.List.Sections

/-!
# Alternative Compositions

Kernels and cores with the same id compute the same function. `Alternatives` in the toolflow
replaces the kernels of a composition by others with their ids, in all ways. The id of a name is
looked up among the kernels first and among the cores only if there is no kernel of that name.

Kernels and cores are lists, in the order in which the file manager gives them. The order of a set
of names is not modelled. The readers of compositions only accept positive counts.
-/

open List

namespace Tapasco.Alternatives

/-- A kernel or a core. -/
structure Core where
  name : List Char
  id : ℤ

/-- A kernel, and how many instances of it. -/
structure Entry where
  kernel : List Char
  count : ℕ
  deriving DecidableEq

structure Composition where
  descPath : String
  description : Option String
  composition : List Entry

def combine {α : Type} (xs : List (List α)) : List (List α) :=
  xs.foldl (fun x y => x.flatMap fun a => y.map fun b => a ++ [b]) [[]]

section

variable (kernels cores : List Core)

def idForName (name : List Char) : Option ℤ :=
  ((kernels.filter fun k => k.name == name).head?.map Core.id).or
    ((cores.filter fun c => c.name == name).head?.map Core.id)

def namesForId (id : ℤ) : List (List Char) :=
  ((kernels.filter fun k => k.id == id).map Core.name ++
    (cores.filter fun c => c.id == id).map Core.name).dedup

def alternativeNames (kernel : List Char) : List (List Char) :=
  ((idForName kernels cores kernel).map (namesForId kernels cores)).getD []

/-- `alternatives` for a composition. What `Composition.id` makes of a path is left open. -/
def alternatives (id : Composition → String) (bd : Composition) : List Composition :=
  (combine (bd.composition.map fun ce =>
    (alternativeNames kernels cores ce.kernel).map fun name => ⟨name, ce.count⟩)).map fun ces =>
      ⟨id bd, some "generated alternative composition", ces⟩

/-- The entry has the count of the other one, and a name with its id. -/
def Alternative (e o : Entry) : Prop :=
  e.count = o.count ∧ ∃ i, idForName kernels cores o.kernel = some i ∧
    ∃ k ∈ kernels ++ cores, k.name = e.kernel ∧ k.id = i

end

/-! ### Choices -/

section

variable {α : Type} {xs : List (List α)}

theorem combine_concat (xs : List (List α)) (y : List α) :
    combine (xs ++ [y]) = (combine xs).flatMap fun a => y.map fun b => a ++ [b] := by
  rw [combine, foldl_append, ← combine]
  rfl

theorem mem_combine {l : List α} : l ∈ combine xs ↔ Forall₂ (· ∈ ·) l xs := by
  have heq : combine xs = (sections xs.reverse).map reverse := by
    induction xs using List.reverseRecOn with
    | nil => rfl
    | append_singleton xs y ih =>
      rw [combine_concat, ih, reverse_append, reverse_singleton, singleton_append, sections,
        map_flatMap, flatMap_map]
      simp only [map_map, Function.comp_def, reverse_cons]
  rw [heq, mem_map_of_involutive reverse_involutive, mem_sections, forall₂_reverse_iff]

theorem nodup_combine (h : ∀ y ∈ xs, y.Nodup) : (combine xs).Nodup := by
  induction xs using List.reverseRecOn with
  | nil => simp [combine]
  | append_singleton xs y ih =>
    rw [forall_mem_append, forall_mem_singleton] at h
    rw [combine_concat, nodup_flatMap]
    refine ⟨fun a _ => h.2.map fun b c hbc => by simpa using hbc, (ih h.1).imp ?_⟩
    intro a b hab l ha hb
    obtain ⟨c, -, rfl⟩ := mem_map.mp ha
    obtain ⟨d, -, hd⟩ := mem_map.mp hb
    exact hab (append_inj' hd rfl).1.symm

end

/-! ### Names -/

section

variable {kernels cores : List Core}

theorem mem_choices {e o : Entry} :
    (e ∈ (alternativeNames kernels cores o.kernel).map fun name => Entry.mk name o.count) ↔
      Alternative kernels cores e o := by
  have hn : e.kernel ∈ alternativeNames kernels cores o.kernel ↔
      ∃ i, idForName kernels cores o.kernel = some i ∧
        ∃ k ∈ kernels ++ cores, k.name = e.kernel ∧ k.id = i := by
    rw [alternativeNames]
    cases idForName kernels cores o.kernel with
    | none => simp
    | some i => simp [namesForId, ← filter_append, ← map_append, and_comm, and_left_comm,
        @eq_comm _ i]
  rw [Alternative, ← hn, mem_map]
  constructor
  · rintro ⟨n, h, rfl⟩
    exact ⟨rfl, h⟩
  · rintro ⟨hc, h⟩
    exact ⟨e.kernel, h, by rw [← hc]⟩

theorem alternative_self {e : Entry} (h : ∃ k ∈ kernels ++ cores, k.name = e.kernel) :
    Alternative kernels cores e e := by
  have heq : idForName kernels cores e.kernel =
      ((kernels ++ cores).filter fun k => k.name == e.kernel).head?.map Core.id := by
    rw [idForName, filter_append, head?_append, Option.map_or]
  obtain ⟨k, hk, hn⟩ := h
  have hf : k ∈ (kernels ++ cores).filter fun k => k.name == e.kernel := by
    simpa [hn] using hk
  obtain ⟨c, hc⟩ := Option.ne_none_iff_exists'.mp (mt head?_eq_none_iff.mp (ne_nil_of_mem hf))
  obtain ⟨hm, hcn⟩ := mem_filter.mp (mem_of_head? hc)
  exact ⟨rfl, c.id, by rw [heq, hc, Option.map_some], c, hm, beq_iff_eq.mp hcn, rfl⟩

/-- **The alternatives of a composition** have, for each of its entries, an entry with the same
count and a name with the id of the original name: all of these, each once, and the entries
themselves are among them if all names are known. -/
theorem alternatives_exact (kernels cores : List Core) (id : Composition → String)
    (bd : Composition) :
    (∀ c, c ∈ alternatives kernels cores id bd ↔
      c.descPath = id bd ∧ c.description = some "generated alternative composition" ∧
        Forall₂ (Alternative kernels cores) c.composition bd.composition) ∧
      (alternatives kernels cores id bd).Nodup ∧
      ((∀ e ∈ bd.composition, ∃ k ∈ kernels ++ cores, k.name = e.kernel) →
        bd.composition ∈ (alternatives kernels cores id bd).map Composition.composition) := by
  have hmem : ∀ l, l ∈ combine (bd.composition.map fun ce =>
      (alternativeNames kernels cores ce.kernel).map fun name => Entry.mk name ce.count) ↔
        Forall₂ (Alternative kernels cores) l bd.composition := fun l => by
    simp only [mem_combine, forall₂_map_right_iff, mem_choices]
  refine ⟨fun c => ?_, ?_, fun h => ?_⟩
  · simp only [alternatives, mem_map, hmem]
    constructor
    · rintro ⟨l, hl, rfl⟩
      exact ⟨rfl, rfl, hl⟩
    · rintro ⟨hp, hd, hl⟩
      exact ⟨c.composition, hl, by rw [← hp, ← hd]⟩
  · refine (nodup_combine (forall_mem_map.mpr fun ce _ => ?_)).map fun l m h => by simpa using h
    refine Nodup.map (fun a b h => by simpa using h) ?_
    rw [alternativeNames]
    cases idForName kernels cores ce.kernel with
    | none => exact nodup_nil
    | some i => exact nodup_dedup _
  · rw [alternatives, map_map]
    exact mem_map.mpr
      ⟨_, (hmem _).mpr (forall₂_same.mpr fun e he => alternative_self (h e he)), rfl⟩

end

end Tapasco.Alternatives
