import Mathlib.Algebra.Ring.Nat
import Mathlib.Data.List.Flatten

/-!
# Stable sorting by a key

What is sorted by a key keeps its order where the keys are equal.  Such a list is
known from the elements of each key, so that going through buckets, one for each
key of a range, sorts a list too.
-/

namespace UltraHft.Lib.StableSort

variable {α : Type*} {key : α → ℕ} {l l₁ l₂ : List α} {c m k : ℕ}

def sort (key : α → ℕ) (l : List α) : List α := l.mergeSort fun x y => key x ≤ key y

def bucket (key : α → ℕ) (l : List α) (k : ℕ) : List α := l.filter fun x => key x = k

theorem mem_bucket {x : α} : x ∈ bucket key l k ↔ x ∈ l ∧ key x = k := by
  rw [bucket, List.mem_filter, decide_eq_true_eq]

theorem mem_sort {x : α} : x ∈ sort key l ↔ x ∈ l := List.mem_mergeSort

theorem le_trans_key (key : α → ℕ) (a b c : α) (hab : decide (key a ≤ key b) = true)
    (hbc : decide (key b ≤ key c) = true) : decide (key a ≤ key c) = true := by
  rw [decide_eq_true_eq] at *
  omega

theorem le_total_key (key : α → ℕ) (a b : α) :
    (decide (key a ≤ key b) || decide (key b ≤ key a)) = true := by
  rw [Bool.or_eq_true, decide_eq_true_eq, decide_eq_true_eq]
  omega

theorem pairwise_sort (key : α → ℕ) (l : List α) :
    (sort key l).Pairwise fun x y => key x ≤ key y :=
  (List.pairwise_mergeSort (le_trans_key key) (le_total_key key) l).imp of_decide_eq_true

theorem bucket_bucket (key : α → ℕ) (l : List α) (k k' : ℕ) :
    bucket key (bucket key l k) k' = if k = k' then bucket key l k else [] := by
  split_ifs with hk
  · subst hk
    rw [bucket, List.filter_eq_self]
    intro x hx
    exact decide_eq_true (mem_bucket.mp hx).2
  · rw [bucket, List.filter_eq_nil_iff]
    intro x hx hx'
    exact hk ((mem_bucket.mp hx).2.symm.trans (of_decide_eq_true hx'))

/-- Sorting does not change the order of what has the same key. -/
theorem bucket_sort (key : α → ℕ) (l : List α) (k : ℕ) :
    bucket key (sort key l) k = bucket key l k := by
  have hpairwise : (bucket key l k).Pairwise fun x y => decide (key x ≤ key y) = true := by
    apply List.pairwise_of_forall_mem_list
    intro x hx y hy
    rw [decide_eq_true_eq, (mem_bucket.mp hx).2, (mem_bucket.mp hy).2]
  have hsublist : (bucket key l k).Sublist (sort key l) :=
    List.sublist_mergeSort (le_trans_key key) (le_total_key key) hpairwise List.filter_sublist
  have hwithin : (bucket key l k).Sublist (bucket key (sort key l) k) := by
    have hfilter := hsublist.filter fun x => decide (key x = k)
    change (bucket key (bucket key l k) k).Sublist _ at hfilter
    rwa [bucket_bucket, if_pos rfl] at hfilter
  have hperm : (bucket key (sort key l) k).Perm (bucket key l k) :=
    (List.mergeSort_perm l _).filter _
  exact (hwithin.eq_of_length hperm.length_eq.symm).symm

theorem eq_of_bucket (h₁ : l₁.Pairwise fun x y => key x ≤ key y)
    (h₂ : l₂.Pairwise fun x y => key x ≤ key y)
    (h : ∀ k, bucket key l₁ k = bucket key l₂ k) : l₁ = l₂ := by
  induction l₁ generalizing l₂ with
  | nil =>
      symm
      apply List.eq_nil_iff_forall_not_mem.mpr
      intro x hx
      have hmem : x ∈ bucket key l₂ (key x) := mem_bucket.mpr ⟨hx, rfl⟩
      rw [← h] at hmem
      cases hmem
  | cons a l₁ ih =>
      cases l₂ with
      | nil =>
          have hmem : a ∈ bucket key (a :: l₁) (key a) := mem_bucket.mpr ⟨List.mem_cons_self, rfl⟩
          rw [h] at hmem
          cases hmem
      | cons b l₂ =>
          have hb : b ∈ a :: l₁ := by
            have hmem : b ∈ bucket key (b :: l₂) (key b) :=
              mem_bucket.mpr ⟨List.mem_cons_self, rfl⟩
            rw [← h] at hmem
            exact (mem_bucket.mp hmem).1
          have ha : a ∈ b :: l₂ := by
            have hmem : a ∈ bucket key (a :: l₁) (key a) :=
              mem_bucket.mpr ⟨List.mem_cons_self, rfl⟩
            rw [h] at hmem
            exact (mem_bucket.mp hmem).1
          have hle : key a ≤ key b := by
            rcases List.mem_cons.mp hb with rfl | hb
            · exact Nat.le_refl _
            · exact List.rel_of_pairwise_cons h₁ hb
          have hge : key b ≤ key a := by
            rcases List.mem_cons.mp ha with rfl | ha
            · exact Nat.le_refl _
            · exact List.rel_of_pairwise_cons h₂ ha
          have hkey : key b = key a := Nat.le_antisymm hge hle
          have hhead := h (key a)
          simp only [bucket, List.filter_cons, hkey, decide_true, if_true] at hhead
          obtain ⟨rfl, -⟩ := List.cons.inj hhead
          congr 1
          apply ih h₁.of_cons h₂.of_cons
          intro k
          have hk := h k
          simp only [bucket, List.filter_cons] at hk
          split_ifs at hk with heq
          · exact (List.cons.inj hk).2
          · exact hk

def buckets (key : α → ℕ) (l : List α) (c m : ℕ) : List α :=
  (List.range m).flatMap fun j => bucket key l (c + j)

theorem buckets_succ (key : α → ℕ) (l : List α) (c m : ℕ) :
    buckets key l c (m + 1) = buckets key l c m ++ bucket key l (c + m) := by
  rw [buckets, List.range_succ, List.flatMap_append, List.flatMap_singleton]
  rfl

theorem key_lt_of_mem_buckets {x : α} (h : x ∈ buckets key l c m) : key x < c + m := by
  obtain ⟨j, hj, hx⟩ := List.mem_flatMap.mp h
  have hlt := List.mem_range.mp hj
  rw [(mem_bucket.mp hx).2]
  omega

theorem pairwise_buckets (key : α → ℕ) (l : List α) (c m : ℕ) :
    (buckets key l c m).Pairwise fun x y => key x ≤ key y := by
  induction m with
  | zero => exact .nil
  | succ m ih =>
      rw [buckets_succ, List.pairwise_append]
      refine ⟨ih, ?_, ?_⟩
      · apply List.pairwise_of_forall_mem_list
        intro x hx y hy
        rw [(mem_bucket.mp hx).2, (mem_bucket.mp hy).2]
      · intro x hx y hy
        rw [(mem_bucket.mp hy).2]
        exact Nat.le_of_lt (key_lt_of_mem_buckets hx)

theorem bucket_buckets (key : α → ℕ) (l : List α) (c m k : ℕ) :
    bucket key (buckets key l c m) k = if c ≤ k ∧ k < c + m then bucket key l k else [] := by
  induction m with
  | zero =>
      rw [if_neg (by omega)]
      rfl
  | succ m ih =>
      rw [buckets_succ, bucket, List.filter_append]
      change bucket key (buckets key l c m) k ++ bucket key (bucket key l (c + m)) k = _
      rw [ih, bucket_bucket]
      by_cases hk : c + m = k
      · subst hk
        rw [if_neg (by omega), if_pos rfl, if_pos (by omega), List.nil_append]
      · rw [if_neg hk, List.append_nil]
        simp only [show (c ≤ k ∧ k < c + (m + 1)) ↔ (c ≤ k ∧ k < c + m) by omega]

/-- **Going through the buckets of a range that has all the keys is sorting.** -/
theorem buckets_eq_sort (h : ∀ x ∈ l, c ≤ key x ∧ key x < c + m) :
    buckets key l c m = sort key l := by
  apply eq_of_bucket (pairwise_buckets key l c m) (pairwise_sort key l)
  intro k
  rw [bucket_buckets, bucket_sort]
  split_ifs with hk
  · rfl
  · symm
    rw [bucket, List.filter_eq_nil_iff]
    intro x hx hkey
    rw [decide_eq_true_eq] at hkey
    exact hk (hkey ▸ h x hx)

end UltraHft.Lib.StableSort
