import Mathlib.Data.List.Induction
import Mathlib.Data.List.Nodup
import Mathlib.Order.Basic

/-!
# Dictionaries in the Order of Insertion

An association list in which a new key is appended and the value of a known key is replaced
where it stands. If entries with equal keys are set one after the other, the dictionary is a
part of the list of these entries, in the same order.
-/

open List

namespace Dict

variable {κ β : Type*} [DecidableEq κ]

/-- A key keeps its place, and a new one goes to the end. -/
def set (d : List (κ × β)) (k : κ) (v : β) : List (κ × β) :=
  if k ∈ d.map Prod.fst then d.map fun e => if e.1 = k then (k, v) else e else d ++ [(k, v)]

/-- Set the entries of a list one after the other. -/
def ofList (l : List (κ × β)) : List (κ × β) :=
  l.foldl (fun d e => set d e.1 e.2) []

section Grouped

variable {α α' : Type*}

/-- Equal elements are next to each other: one that occurred before occurred right before. -/
def Grouped (l : List α) : Prop :=
  ∀ pre a post, l = pre ++ a :: post → a ∈ pre → pre.getLast? = some a

variable {l : List α}

theorem Grouped.of_append {m : List α} (h : Grouped (l ++ m)) : Grouped l := by
  rintro pre a post rfl hm
  exact h pre a (post ++ m) (by simp) hm

theorem Grouped.map (h : Grouped l) {f : α → α'} (hf : f.Injective) : Grouped (l.map f) := by
  intro pre a post heq hm
  obtain ⟨pre', rest, rfl, rfl, hr⟩ := map_eq_append_iff.mp heq
  obtain ⟨a', post', rfl, rfl, -⟩ := map_eq_cons_iff.mp hr
  rw [getLast?_map, h pre' a' post' rfl ((mem_map_of_injective hf).mp hm)]
  rfl

theorem grouped_append {m : List α} (hl : Grouped l) (hm : Grouped m) (hd : ∀ a ∈ l, a ∉ m) :
    Grouped (l ++ m) := by
  intro pre a post heq hme
  rcases append_eq_append_iff.mp heq with ⟨pre', rfl, hm'⟩ | ⟨l', hl', hm'⟩
  · -- the element is in the second list
    have hn : a ∉ l := fun h => hd a h (by rw [hm']; simp)
    have hla := hm pre' a post hm' ((mem_append.mp hme).resolve_left hn)
    rw [getLast?_append, hla]
    rfl
  · cases l' with
    | nil =>
      rw [append_nil] at hl'
      rw [nil_append] at hm'
      exact absurd (hm' ▸ mem_cons_self) (hd a (hl' ▸ hme))
    | cons a₀ l' =>
      obtain ⟨rfl, -⟩ := List.cons.inj hm'
      exact hl pre a l' hl' hme

theorem grouped_of_sorted [PartialOrder α] (h : l.Pairwise (· ≤ ·)) : Grouped l := by
  rintro pre a post rfl hm
  obtain ⟨pre', b, rfl⟩ : ∃ pre' b, pre = pre' ++ [b] :=
    ⟨_, _, (dropLast_append_getLast (ne_nil_of_mem hm)).symm⟩
  rw [pairwise_append, pairwise_append] at h
  obtain ⟨⟨-, -, hl⟩, -, hc⟩ := h
  have hab : a ≤ b := by
    rcases mem_append.mp hm with ha | ha
    · exact hl a ha b (mem_singleton_self b)
    · exact (mem_singleton.mp ha).le
  have hb : b ≤ a := hc b (by simp) a mem_cons_self
  rw [getLast?_concat, le_antisymm hb hab]

theorem grouped_of_length_le_two (h : l.length ≤ 2) : Grouped l := by
  rintro pre a post rfl hm
  cases pre with
  | nil => exact absurd hm not_mem_nil
  | cons b pre =>
    obtain rfl : pre = [] := by
      rw [← length_eq_zero_iff]
      simp only [cons_append, length_cons, length_append] at h
      omega
    rw [mem_singleton.mp hm]
    rfl

end Grouped

theorem ofList_concat (l : List (κ × β)) (e : κ × β) : ofList (l ++ [e]) = set (ofList l) e.1 e.2 :=
  foldl_concat _ _ _ _

theorem keys_set (d : List (κ × β)) (k : κ) (v : β) :
    (set d k v).map Prod.fst = if k ∈ d.map Prod.fst then d.map Prod.fst
      else d.map Prod.fst ++ [k] := by
  rw [set]
  split
  · rw [map_map]
    refine map_congr_left fun e _ => ?_
    by_cases h : e.1 = k <;> simp [h]
  · rw [map_append, map_singleton]

theorem keys_ofList_subset (l : List (κ × β)) : (ofList l).map Prod.fst ⊆ l.map Prod.fst := by
  induction l using List.reverseRecOn with
  | nil => exact fun _ hk => hk
  | append_singleton l e ih =>
    rw [ofList_concat, keys_set, map_append, map_singleton]
    split
    · exact fun k hk => mem_append_left _ (ih hk)
    · exact append_subset.mpr
        ⟨fun k hk => mem_append_left _ (ih hk), subset_append_right _ _⟩

theorem set_append {d : List (κ × β)} {k : κ} (hk : k ∉ d.map Prod.fst) (d' : List (κ × β))
    (v : β) : set (d ++ d') k v = d ++ set d' k v := by
  have hd : d.map (fun e => if e.1 = k then (k, v) else e) = d := by
    refine (map_congr_left fun e he => if_neg ?_).trans (map_id d)
    exact fun hek => hk (hek ▸ mem_map_of_mem he)
  have hm : k ∈ (d ++ d').map Prod.fst ↔ k ∈ d'.map Prod.fst := by
    rw [map_append, mem_append, or_iff_right hk]
  simp only [set, hm]
  split
  · rw [map_append, hd]
  · rw [append_assoc]

/-- Lists without common keys have dictionaries without common keys. -/
theorem ofList_append {l m : List (κ × β)} (hd : ∀ a ∈ l, ∀ b ∈ m, a.1 ≠ b.1) :
    ofList (l ++ m) = ofList l ++ ofList m := by
  induction m using List.reverseRecOn with
  | nil => rw [append_nil]; exact (append_nil _).symm
  | append_singleton m e ih =>
    have hn : e.1 ∉ (ofList l).map Prod.fst := by
      intro h
      obtain ⟨a, ha, hae⟩ := mem_map.mp (keys_ofList_subset l h)
      exact hd a ha e (by simp) hae
    rw [← append_assoc, ofList_concat, ofList_concat,
      ih fun a ha b hb => hd a ha b (mem_append_left _ hb), set_append hn]

/-- **Other keys**, as long as different keys stay different. -/
theorem ofList_map {κ' β' : Type*} [DecidableEq κ'] {f : κ → κ'} (hf : f.Injective)
    (g : β → β') (l : List (κ × β)) :
    ofList (l.map (Prod.map f g)) = (ofList l).map (Prod.map f g) := by
  induction l using List.reverseRecOn with
  | nil => rfl
  | append_singleton l e ih =>
    have hm (d : List (κ × β)) :
        f e.1 ∈ (d.map (Prod.map f g)).map Prod.fst ↔ e.1 ∈ d.map Prod.fst := by
      rw [map_map, show Prod.fst ∘ Prod.map f g = f ∘ Prod.fst from rfl, ← map_map]
      exact mem_map_of_injective hf
    rw [map_append, map_singleton, ofList_concat, ofList_concat, ih, set, set,
      Prod.map_fst, Prod.map_snd]
    simp only [hm]
    split
    · rw [map_map, map_map]
      refine map_congr_left fun a _ => ?_
      by_cases h : a.1 = e.1
      · rw [Function.comp_apply, Function.comp_apply, Prod.map_fst, h, if_pos rfl, if_pos rfl]
        rfl
      · rw [Function.comp_apply, Function.comp_apply, Prod.map_fst, if_neg h, if_neg (hf.ne h)]
    · rw [map_append, map_singleton]
      rfl

/-- What a dictionary has in common with the list of the entries that were set. -/
structure Condenses (d l : List (κ × β)) : Prop where
  sublist : d.Sublist l
  last : d.getLast? = l.getLast?
  nodup : (d.map Prod.fst).Nodup

/-- **The dictionary of a list** in which equal keys are next to each other. -/
theorem ofList_spec {l : List (κ × β)} (h : Grouped (l.map Prod.fst)) : Condenses (ofList l) l := by
  induction l using List.reverseRecOn with
  | nil => exact ⟨List.Sublist.refl [], rfl, nodup_nil⟩
  | append_singleton l e ih =>
    rw [map_append, map_singleton] at h
    obtain ⟨hs, hl, hno⟩ := ih h.of_append
    rw [ofList_concat, set]
    split
    · -- the key was set right before: its entry is the last one
      rename_i hme
      have hg := h (l.map Prod.fst) e.1 [] rfl (map_subset Prod.fst hs.subset hme)
      rw [getLast?_map, ← hl] at hg
      obtain ⟨e', he', hk⟩ := Option.map_eq_some_iff.mp hg
      obtain ⟨d, hd⟩ := getLast?_eq_some_iff.mp he'
      rw [hd] at hs hno
      have hf : ∀ a ∈ d, a.1 ≠ e.1 := by
        rw [map_append, nodup_append] at hno
        exact fun a ha heq => hno.2.2 a.1 (mem_map_of_mem ha) e'.1 (by simp)
          (heq.trans hk.symm)
      have hm : (d ++ [e']).map (fun a => if a.1 = e.1 then (e.1, e.2) else a) = d ++ [e] := by
        rw [map_append, map_singleton, if_pos hk]
        refine congrArg (· ++ [e]) ?_
        exact (map_congr_left fun a ha => if_neg (hf a ha)).trans (map_id d)
      have hs' : d.Sublist l := (sublist_append_left d [e']).trans hs
      rw [hd, hm]
      refine ⟨hs'.append (List.Sublist.refl [e]), by simp, ?_⟩
      rw [map_append, map_singleton, hk] at hno
      rw [map_append, map_singleton]
      exact hno
    · rename_i hn
      refine ⟨hs.append (List.Sublist.refl [e]), by simp, ?_⟩
      rw [map_append, map_singleton, nodup_append]
      refine ⟨hno, nodup_singleton _, fun a ha b hb hab => ?_⟩
      rw [mem_singleton] at hb
      exact hn (hb ▸ hab ▸ ha)

end Dict
