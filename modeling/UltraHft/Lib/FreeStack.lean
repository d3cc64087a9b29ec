import Mathlib.Data.List.Nodup
import Mathlib.Data.Set.Insert

/-!
# A stack of free slots

An allocator of fixed slots keeps the free ones on a stack, whose top is the end
of the list.  Taking a slot makes it busy, giving it back makes it free again;
in between, every slot is on exactly one of the two sides.
-/

namespace UltraHft.Lib.FreeStack

variable {α : Type*} {slots busy : Set α} {free : List α} {x : α}

/-- The free and the busy slots together are the slots, each of them once. -/
structure Partition (slots : Set α) (free : List α) (busy : Set α) : Prop where
  nodup : free.Nodup
  disjoint : ∀ x ∈ free, x ∉ busy
  cover : ∀ x, x ∈ slots ↔ x ∈ free ∨ x ∈ busy

namespace Partition

theorem free_mem (h : Partition slots free busy) (hx : x ∈ free) : x ∈ slots :=
  (h.cover x).mpr (.inl hx)

theorem busy_mem (h : Partition slots free busy) (hx : x ∈ busy) : x ∈ slots :=
  (h.cover x).mpr (.inr hx)

theorem take (h : Partition slots (free ++ [x]) busy) :
    Partition slots free (insert x busy) := by
  have hnodup := List.nodup_append.mp h.nodup
  constructor
  · exact hnodup.1
  · intro y hy hbusy
    cases hbusy with
    | inl hyx => exact hnodup.2.2 y hy x (by simp) hyx
    | inr hbusy => exact h.disjoint y (by simp [hy]) hbusy
  · intro y
    rw [h.cover y, List.mem_append, List.mem_singleton, Set.mem_insert_iff, or_assoc]

theorem give (h : Partition slots free busy) (hx : x ∈ busy) :
    Partition slots (free ++ [x]) (busy \ {x}) := by
  constructor
  · apply List.nodup_append.mpr
    refine ⟨h.nodup, List.nodup_singleton x, ?_⟩
    intro y hy z hz hyz
    obtain rfl : z = x := by simpa using hz
    exact h.disjoint y hy (hyz ▸ hx)
  · intro y hy hbusy
    rcases List.mem_append.mp hy with hfree | hyx
    · exact h.disjoint y hfree hbusy.1
    · exact hbusy.2 (List.mem_singleton.mp hyx)
  · intro y
    by_cases hyx : y = x
    · subst hyx
      simp [h.busy_mem hx]
    · simp [h.cover y, hyx]

theorem lose (h : Partition slots (free ++ [x]) busy) : Partition (slots \ {x}) free busy := by
  have hnodup := List.nodup_append.mp h.nodup
  constructor
  · exact hnodup.1
  · intro y hy
    exact h.disjoint y (by simp [hy])
  · intro y
    rw [Set.mem_sdiff, Set.mem_singleton_iff, h.cover y, List.mem_append, List.mem_singleton]
    constructor
    · rintro ⟨(hfree | hyx) | hbusy, hne⟩
      · exact .inl hfree
      · exact absurd hyx hne
      · exact .inr hbusy
    · rintro (hfree | hbusy)
      · exact ⟨.inl (.inl hfree), fun hyx => hnodup.2.2 y hfree x (by simp) hyx⟩
      · exact ⟨.inr hbusy, fun hyx => h.disjoint x (by simp) (hyx ▸ hbusy)⟩

end Partition

end UltraHft.Lib.FreeStack
