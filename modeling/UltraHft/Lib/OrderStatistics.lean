import Mathlib.Data.List.Sort

/-!
# Order statistics

Element `k` of a list sorted by its order, and what a count says about it: a
property that smaller elements inherit holds of element `k` exactly when more
than `k` elements have it.
-/

namespace UltraHft.Lib.OrderStatistics

variable {α : Type*} [LinearOrder α] {l : List α} {k : Nat} {s : α}

def orderStat (l : List α) (k : Nat) : Option α := (l.mergeSort (· ≤ ·))[k]?

theorem orderStat_of_sorted (hl : l.Pairwise (· ≤ ·)) (k : Nat) : orderStat l k = l[k]? := by
  unfold orderStat
  rw [List.mergeSort_eq_self (· ≤ ·) hl]

theorem exists_orderStat (hk : k < l.length) : ∃ s, orderStat l k = some s := by
  have hlength : k < (l.mergeSort (· ≤ ·)).length := by
    rw [List.length_mergeSort]
    exact hk
  exact ⟨_, List.getElem?_eq_getElem hlength⟩

theorem mem_of_orderStat (hs : orderStat l k = some s) : s ∈ l :=
  List.mem_mergeSort.mp (List.mem_of_getElem? hs)

theorem orderStat_split (hs : orderStat l k = some s) :
    ∃ below above, (below ++ s :: above).Perm l ∧ below.length = k ∧
      (∀ a ∈ below, a ≤ s) ∧ ∀ a ∈ above, s ≤ a := by
  obtain ⟨hk, hget⟩ := List.getElem?_eq_some_iff.mp hs
  have hsorted := List.pairwise_mergeSort' (· ≤ ·) l
  have hsplit : (l.mergeSort (· ≤ ·)).take k ++ s :: (l.mergeSort (· ≤ ·)).drop (k + 1) =
      l.mergeSort (· ≤ ·) := by
    rw [← hget, List.getElem_cons_drop, List.take_append_drop]
  rw [← hsplit, List.pairwise_append] at hsorted
  refine ⟨(l.mergeSort (· ≤ ·)).take k, (l.mergeSort (· ≤ ·)).drop (k + 1), ?_, ?_, ?_, ?_⟩
  · rw [hsplit]
    exact List.mergeSort_perm l _
  · exact List.length_take_of_le hk.le
  · intro a ha
    exact hsorted.2.2 a ha s List.mem_cons_self
  · exact (List.pairwise_cons.mp hsorted.2.1).1

theorem lt_countP_iff (hs : orderStat l k = some s) {P : α → Bool}
    (hP : ∀ a b, a ≤ b → P b → P a) : k < l.countP P ↔ P s := by
  obtain ⟨below, above, hperm, hlength, hbelow, habove⟩ := orderStat_split hs
  have hcount : l.countP P = below.countP P + (s :: above).countP P := by
    rw [← hperm.countP_eq P, List.countP_append]
  by_cases hsP : P s
  · have hall : below.countP P = below.length :=
      List.countP_eq_length.mpr fun a ha => hP a s (hbelow a ha) hsP
    have hhere : (s :: above).countP P = above.countP P + 1 := List.countP_cons_of_pos hsP
    have hmany : k < l.countP P := by omega
    exact iff_of_true hmany hsP
  · have hnone : (s :: above).countP P = 0 := by
      apply List.countP_eq_zero.mpr
      intro a ha haP
      rcases List.mem_cons.mp ha with rfl | ha
      · exact hsP haP
      · exact hsP (hP s a (habove a ha) haP)
    have hle : below.countP P ≤ below.length := List.countP_le_length
    have hfew : l.countP P ≤ k := by omega
    exact iff_of_false hfew.not_gt hsP

theorem countP_lt_succ {β : Type*} (f : β → Nat) (l : List β) (b : Nat) :
    l.countP (fun a => f a < b + 1) =
      l.countP (fun a => f a < b) + l.countP (fun a => f a = b) := by
  induction l with
  | nil => rfl
  | cons a l ih =>
      simp only [List.countP_cons, decide_eq_true_eq, ih]
      rcases Nat.lt_trichotomy (f a) b with hlt | heq | hgt
      · rw [if_pos (Nat.lt_succ_of_lt hlt), if_pos hlt, if_neg hlt.ne]
        omega
      · rw [if_pos (Nat.lt_succ_of_le heq.le), if_neg heq.not_lt, if_pos heq]
        omega
      · rw [if_neg (Nat.not_lt_of_le hgt), if_neg hgt.not_gt, if_neg hgt.ne']
        omega

end UltraHft.Lib.OrderStatistics
