import Mathlib.Data.Multiset.Filter
import Mathlib.Data.Multiset.Range
import UltraHft.Lib.OpenAddressing.Shift

/-!
# The contents of a table

What a table holds, with no regard to the places: the multiset of its entries.
Filling an empty cell adds an entry, vacating a cell takes one out, and a
rearrangement changes nothing.
-/

namespace UltraHft.Lib.OpenAddressing

variable {α β : Type*} {n i : Nat} {c c' : Nat → Option α} {a : α}

def contents (n : Nat) (c : Nat → Option α) : Multiset α := (Multiset.range n).filterMap c

theorem mem_contents : a ∈ contents n c ↔ ∃ i < n, c i = some a := by
  simp [contents, Multiset.mem_filterMap]

theorem filterMap_congr {s : Multiset Nat} (h : ∀ i ∈ s, c i = c' i) :
    s.filterMap c = s.filterMap c' := by
  induction s using Multiset.induction_on with
  | empty => rfl
  | cons i s ih =>
      have hrest := ih fun j hj => h j (Multiset.mem_cons_of_mem hj)
      rw [Multiset.filterMap_cons, Multiset.filterMap_cons, h i (Multiset.mem_cons_self i s), hrest]

theorem contents_congr (h : ∀ i < n, c i = c' i) : contents n c = contents n c' := by
  apply filterMap_congr
  intro i hi
  exact h i (Multiset.mem_range.mp hi)

theorem contents_map (f : α → β) :
    contents n (fun i => (c i).map f) = (contents n c).map f :=
  (Multiset.map_filterMap c f _).symm

theorem contents_split (hi : i < n) :
    contents n c = ((c i).map singleton).getD 0 + contents n (Function.update c i none) := by
  have hrange : Multiset.range n = i ::ₘ (Multiset.range n).erase i :=
    (Multiset.cons_erase (Multiset.mem_range.mpr hi)).symm
  have hothers : ((Multiset.range n).erase i).filterMap (Function.update c i none) =
      ((Multiset.range n).erase i).filterMap c := by
    apply filterMap_congr
    intro j hj
    have hne : j ≠ i := by
      rintro rfl
      exact (Multiset.nodup_range n).notMem_erase hj
    rw [Function.update_of_ne hne]
  unfold contents
  rw [hrange, Multiset.filterMap_cons, Multiset.filterMap_cons, hothers]
  simp

theorem contents_vacate (hi : i < n) (ha : c i = some a) :
    contents n c = a ::ₘ contents n (Function.update c i none) := by
  rw [contents_split hi, ha]
  rfl

theorem contents_update (hi : i < n) :
    contents n (Function.update c i (some a)) =
      a ::ₘ contents n (Function.update c i none) := by
  rw [contents_vacate hi (Function.update_self i (some a) c), Function.update_idem]

theorem contents_fill (hi : i < n) (hempty : c i = none) :
    contents n (Function.update c i (some a)) = a ::ₘ contents n c := by
  have hsame : Function.update c i none = c := by
    rw [← hempty, Function.update_eq_self]
  rw [contents_update hi, hsame]

theorem contents_rearrangement (h : Rearrangement n c c') : contents n c' = contents n c := by
  obtain ⟨π, hπ, rfl⟩ := h
  have hrange : (Multiset.range n).map π = Multiset.range n := by
    apply (Multiset.Nodup.ext ((Multiset.nodup_range n).map π.injective)
      (Multiset.nodup_range n)).mpr
    intro i
    simp only [Multiset.mem_map, Multiset.mem_range]
    constructor
    · rintro ⟨j, hj, rfl⟩
      exact (hπ j).mpr hj
    · intro hi
      refine ⟨π.symm i, ?_, π.apply_symm_apply i⟩
      rwa [← hπ, π.apply_symm_apply]
  rw [contents, ← Multiset.filterMap_map, hrange]
  rfl

end UltraHft.Lib.OpenAddressing
