import Mathlib.Algebra.BigOperators.Group.Finset.Basic
import Mathlib.Algebra.Order.Group.Multiset
import Mathlib.Algebra.Ring.Nat
import Mathlib.Logic.Function.Basic

/-!
# Buckets

An array of lists as one collection: what the lists below `n` hold together,
each member as often as it is there.
-/

namespace UltraHft.Lib.Buckets

variable {α : Type*} {n b : Nat} {f : Nat → List α} {l : List α} {a : α}

theorem coe_concat (l : List α) (a : α) :
    ((l ++ [a] : List α) : Multiset α) = a ::ₘ (l : Multiset α) := by
  rw [← Multiset.coe_add, Multiset.coe_singleton, add_comm, Multiset.singleton_add]

def gathered (n : Nat) (f : Nat → List α) : Multiset α :=
  ∑ b ∈ Finset.range n, (f b : Multiset α)

theorem mem_gathered : a ∈ gathered n f ↔ ∃ b < n, a ∈ f b := by
  simp [gathered, Multiset.mem_sum]

theorem card_gathered :
    (gathered n f).card = ((List.range n).map fun b => (f b).length).sum := by
  unfold gathered
  rw [Multiset.card_sum]
  simp only [Multiset.coe_card]
  rfl

theorem gathered_split (hb : b < n) :
    gathered n f = ↑(f b) + ∑ c ∈ (Finset.range n).erase b, (f c : Multiset α) :=
  (Finset.add_sum_erase _ _ (Finset.mem_range.mpr hb)).symm

theorem gathered_update (hb : b < n) :
    gathered n (Function.update f b l) + ↑(f b) = gathered n f + ↑l := by
  have hothers : ∑ c ∈ (Finset.range n).erase b, (Function.update f b l c : Multiset α) =
      ∑ c ∈ (Finset.range n).erase b, (f c : Multiset α) := by
    apply Finset.sum_congr rfl
    intro c hc
    rw [Function.update_of_ne (Finset.ne_of_mem_erase hc)]
  rw [gathered_split hb, gathered_split (f := f) hb, hothers, Function.update_self]
  rw [add_comm, ← add_assoc, add_right_comm]

/-- Replacing one bucket, where the difference between old and new is known. -/
theorem gathered_update_eq (hb : b < n) {s t : Multiset α}
    (hl : (l : Multiset α) + s = ↑(f b) + t) :
    gathered n (Function.update f b l) + s = gathered n f + t := by
  apply add_right_cancel (b := (f b : Multiset α))
  calc gathered n (Function.update f b l) + s + ↑(f b)
      = gathered n (Function.update f b l) + ↑(f b) + s := add_right_comm _ _ _
    _ = gathered n f + (↑l + s) := by rw [gathered_update hb, add_assoc]
    _ = gathered n f + t + ↑(f b) := by rw [hl, add_comm (f b : Multiset α), ← add_assoc]

theorem gathered_push (hb : b < n) :
    gathered n (Function.update f b (f b ++ [a])) = a ::ₘ gathered n f := by
  have hpush : ((f b ++ [a] : List α) : Multiset α) + 0 = ↑(f b) + {a} := by
    rw [add_zero, coe_concat, add_comm, Multiset.singleton_add]
  rw [← add_zero (gathered n _), gathered_update_eq hb hpush, add_comm, Multiset.singleton_add]

theorem gathered_remove (hb : b < n) {l₁ l₂ : List α} (hl : f b = l₁ ++ a :: l₂) :
    gathered n f = a ::ₘ gathered n (Function.update f b (l₁ ++ l₂)) := by
  have hremove : ((l₁ ++ l₂ : List α) : Multiset α) + {a} = ↑(f b) + 0 := by
    rw [hl, add_zero, add_comm, Multiset.singleton_add, Multiset.cons_coe, Multiset.coe_eq_coe]
    exact List.perm_middle.symm
  rw [← Multiset.singleton_add, add_comm, gathered_update_eq hb hremove, add_zero]

theorem gathered_filter (f : α → Nat) (h : ∀ x ∈ l, f x < n) :
    gathered n (fun b => l.filter fun x => f x = b) = ↑l := by
  induction l using List.reverseRecOn with
  | nil => simp [gathered]
  | append_singleton l a ih =>
      have hupdate : (fun b => (l ++ [a]).filter fun x => f x = b) =
          Function.update (fun b => l.filter fun x => f x = b) (f a)
            ((l.filter fun x => f x = f a) ++ [a]) := by
        funext b
        by_cases hb : b = f a
        · subst hb
          simp
        · simp [hb, Ne.symm hb]
      rw [hupdate, gathered_push (f := fun b => l.filter fun x => f x = b) (h a (by simp)),
        ih fun x hx => h x (by simp [hx]), coe_concat]

end UltraHft.Lib.Buckets
