import Mathlib.Data.List.Nodup

/-!
# Lists of Copies

A copy fills one cell of a memory with the content of another one, or with a blank. This
module says what a list of copies does to a memory, for any type of cells and of contents, and
when such a list transfers given cells to given cells: `Exact`.
-/

open List

namespace Copies

universe u

variable {L : Type u}

/-- The cell that is written, and the one that is read, or none for a blank. -/
structure Copy (L : Type u) where
  dst : L
  src : Option L
  deriving DecidableEq

section

variable [DecidableEq L] {γ : Type*}

/-- The memory after a list of copies. -/
def apply (blank : γ) (m : L → γ) : List (Copy L) → L → γ
  | [] => m
  | c :: cs => apply blank (Function.update m c.dst (c.src.elim blank m)) cs

variable {blank : γ} {m : L → γ} {cs : List (Copy L)}

theorem apply_append (cs cs' : List (Copy L)) :
    apply blank m (cs ++ cs') = apply blank (apply blank m cs) cs' := by
  induction cs generalizing m with
  | nil => rfl
  | cons c cs ih => exact ih

theorem apply_of_not_mem {l : L} (h : ∀ c ∈ cs, c.dst ≠ l) : apply blank m cs l = m l := by
  induction cs generalizing m with
  | nil => rfl
  | cons c cs ih =>
    rw [forall_mem_cons] at h
    rw [apply, ih h.2, Function.update_of_ne h.1.symm]

/-- **One copy among others**: where no cell is written twice or written and read, every copy has
its effect. -/
theorem apply_of_mem (hd : (cs.map Copy.dst).Nodup)
    (hsr : ∀ c ∈ cs, ∀ c' ∈ cs, c.src ≠ some c'.dst) {c : Copy L} (hc : c ∈ cs) :
    apply blank m cs c.dst = c.src.elim blank m := by
  induction cs generalizing m with
  | nil => exact absurd hc not_mem_nil
  | cons d cs ih =>
    rw [map_cons, nodup_cons] at hd
    rw [apply]
    rcases mem_cons.mp hc with rfl | hc'
    · have ho : ∀ c' ∈ cs, c'.dst ≠ c.dst := by
        intro c' hc' heq
        exact hd.1 (mem_map.mpr ⟨c', hc', heq⟩)
      rw [apply_of_not_mem ho, Function.update_self]
    · have hne : c.src ≠ some d.dst := hsr c hc d mem_cons_self
      rw [ih hd.2 (fun a ha b hb => hsr a (mem_cons_of_mem _ ha) b (mem_cons_of_mem _ hb)) hc']
      cases hs : c.src with
      | none => rfl
      | some l => exact Function.update_of_ne (fun heq => hne (hs.trans (congrArg some heq))) _ _

/-- Copies one by one to different cells, from cells that are not written. -/
theorem apply_map_range {n : ℕ} {d : ℕ → L} {s : ℕ → Option L}
    (hinj : ∀ i < n, ∀ j < n, d i = d j → i = j) (hs : ∀ i < n, ∀ j < n, s i ≠ some (d j))
    {i : ℕ} (hi : i < n) :
    apply blank m ((List.range n).map fun i => ⟨d i, s i⟩) (d i) = (s i).elim blank m := by
  refine apply_of_mem (c := ⟨d i, s i⟩) ?_ ?_ (mem_map_of_mem (List.mem_range.mpr hi))
  · rw [map_map]
    refine List.Nodup.map_on ?_ nodup_range
    exact fun i hi j hj => hinj i (List.mem_range.mp hi) j (List.mem_range.mp hj)
  · intro c hc c' hc'
    obtain ⟨j, hj, rfl⟩ := mem_map.mp hc
    obtain ⟨j', hj', rfl⟩ := mem_map.mp hc'
    exact hs j (List.mem_range.mp hj) j' (List.mem_range.mp hj')

/-- The copies write the cells `dst i` for `i` below `n`, each once and in order, and otherwise
only scratch cells; and each cell `dst i` ends up with what `src i` had. -/
structure Exact (scratch : L → Bool) (cs : List (Copy L)) (n : ℕ) (src : ℕ → Option L)
    (dst : ℕ → L) : Prop where
  written : ((cs.map Copy.dst).filter fun l => ! scratch l) = (List.range n).map dst
  content : ∀ {γ : Type u} (blank : γ) (m : L → γ) (i : ℕ), i < n →
    apply blank m cs (dst i) = (src i).elim blank m

variable {scratch scratch' : L → Bool} {cs' : List (Copy L)} {n : ℕ} {src : ℕ → Option L}
  {dst : ℕ → L}

theorem Exact.unchanged {γ : Type u} {blank : γ} {m : L → γ} (h : Exact scratch cs n src dst)
    {l : L} (hl : scratch l = false) (hd : ∀ i < n, dst i ≠ l) : apply blank m cs l = m l := by
  refine apply_of_not_mem fun c hc heq => ?_
  have hm : l ∈ (cs.map Copy.dst).filter fun l => ! scratch l := by
    rw [mem_filter]
    exact ⟨heq ▸ mem_map_of_mem hc, by rw [hl]; rfl⟩
  rw [h.written, mem_map] at hm
  obtain ⟨i, hi, hdi⟩ := hm
  exact hd i (List.mem_range.mp hi) hdi

theorem Exact.map_dst (h : Exact (fun _ => false) cs n src dst) :
    cs.map Copy.dst = (List.range n).map dst := by
  have hw := h.written
  simp only [Bool.not_false, filter_true] at hw
  exact hw

/-- **The same effect**: two exact transfers of the same cells agree, outside of what they use
as scratch. -/
theorem Exact.apply_eq {γ : Type u} (h : Exact scratch cs n src dst)
    (h' : Exact scratch' cs' n src dst) (blank : γ) (m : L → γ) {l : L}
    (hl : scratch l = false) (hl' : scratch' l = false) :
    apply blank m cs l = apply blank m cs' l := by
  by_cases hd : ∃ i < n, dst i = l
  · obtain ⟨i, hi, rfl⟩ := hd
    rw [h.content blank m i hi, h'.content blank m i hi]
  · have hne : ∀ i < n, dst i ≠ l := fun i hi heq => hd ⟨i, hi, heq⟩
    rw [h.unchanged hl hne, h'.unchanged hl' hne]

/-- **Copies one by one** to different cells that are not read are exact exactly if the cells read
are the right ones. -/
theorem exact_map_iff (s : ℕ → Option L)
    (hinj : ∀ i < n, ∀ j < n, dst i = dst j → i = j) (hs : ∀ i < n, ∀ j < n, s i ≠ some (dst j)) :
    Exact (fun _ => false) ((List.range n).map fun i => ⟨dst i, s i⟩) n src dst ↔
      ∀ i < n, s i = src i := by
  have hw : ((List.range n).map fun i => (⟨dst i, s i⟩ : Copy L)).map Copy.dst =
      (List.range n).map dst := by
    rw [map_map]
    rfl
  constructor
  · intro h i hi
    -- a memory in which every cell holds its own name shows where a content came from
    have hn := h.content none some i hi
    have he (o : Option L) : o.elim none some = o := by cases o <;> rfl
    rwa [apply_map_range hinj hs hi, he, he] at hn
  · intro h
    refine ⟨?_, fun blank m i hi => ?_⟩
    · rw [hw]
      exact filter_eq_self.mpr fun _ _ => rfl
    · rw [apply_map_range hinj hs hi, h i hi]

end

end Copies
