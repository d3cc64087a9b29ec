import Mathlib.Algebra.BigOperators.Group.Finset.Basic
import Mathlib.Algebra.Order.BigOperators.Group.Finset
import Mathlib.Logic.Equiv.Basic
import Mathlib.Tactic.Ring
import UltraHft.Lib.OpenAddressing.Table

/-!
# Backward shift with a strict displacement test

After a cell is vacated, the scan walks on to the next empty cell.  An entry
displaced by more than its distance to the hole is moved into the hole, and its
own cell becomes the hole.  The test is strict, so an entry whose home *is* the
hole stays where it is.  `Strands` says, of the table before the erasure, when
such an entry is left behind an empty home cell.
-/

namespace UltraHft.Lib.OpenAddressing

open UltraHft.Lib.Cyclic

variable {α : Type*}

/-- The vacated cell and the cell under examination. -/
structure Shift (α : Type*) where
  cells : Nat → Option α
  hole : Nat
  cur : Nat

namespace Shift

def pass (n : Nat) (t : Shift α) : Shift α :=
  { t with cur := (t.cur + 1) % n }

def move (n : Nat) (t : Shift α) (a : α) : Shift α where
  cells := Function.update (Function.update t.cells t.hole (some a)) t.cur none
  hole := t.cur
  cur := (t.cur + 1) % n

end Shift

def shiftBody (n : Nat) (home : α → Nat) (t : Shift α) :
    Option (Shift α ⊕ (Nat → Option α)) :=
  match t.cells t.cur with
  | none => some (.inr t.cells)
  | some a =>
      if dist n t.hole t.cur < dist n (home a) t.cur then some (.inl (t.move n a))
      else some (.inl (t.pass n))

section Step

variable {n : Nat} {home : α → Nat} {t t' : Shift α} {c' : Nat → Option α}

theorem shiftBody_next (h : shiftBody n home t = some (.inl t')) :
    ∃ a, t.cells t.cur = some a ∧
      (dist n t.hole t.cur < dist n (home a) t.cur ∧ t' = t.move n a ∨
        dist n (home a) t.cur ≤ dist n t.hole t.cur ∧ t' = t.pass n) := by
  unfold shiftBody at h
  cases ha : t.cells t.cur with
  | none => simp [ha] at h
  | some a =>
      refine ⟨a, rfl, ?_⟩
      simp only [ha] at h
      split_ifs at h with hlt
      · exact .inl ⟨hlt, by simpa using h.symm⟩
      · exact .inr ⟨by omega, by simpa using h.symm⟩

theorem shiftBody_leave (h : shiftBody n home t = some (.inr c')) :
    t.cells t.cur = none ∧ c' = t.cells := by
  unfold shiftBody at h
  cases ha : t.cells t.cur with
  | none => exact ⟨rfl, by simpa [ha] using h.symm⟩
  | some a =>
      simp only [ha] at h
      split_ifs at h <;> simp at h

theorem shiftBody_ne_none : shiftBody n home t ≠ none := by
  unfold shiftBody
  cases t.cells t.cur with
  | none => simp
  | some a => dsimp only; split_ifs <;> simp

end Step

/-! ## Any table: the loop ends and only rearranges the entries -/

/-- The cells below `n` hold the same entries, at other places. -/
def Rearrangement (n : Nat) (c₀ c : Nat → Option α) : Prop :=
  ∃ π : Equiv.Perm Nat, (∀ i, π i < n ↔ i < n) ∧ c = c₀ ∘ π

structure Rearranged (n : Nat) (c₀ : Nat → Option α) (t : Shift α) : Prop where
  hole_lt : t.hole < n
  cur_lt : t.cur < n
  empty : t.cells t.hole = none
  perm : Rearrangement n c₀ t.cells

def displacement (n : Nat) (home : α → Nat) (c : Nat → Option α) (i : Nat) : Nat :=
  match c i with
  | none => 0
  | some a => dist n (home a) i

/-- The measure of the shift: displacements first, then the distance that the
scan has left to the hole. -/
def shiftMeasure (n : Nat) (home : α → Nat) (t : Shift α) : Nat :=
  (∑ i ∈ Finset.range n, displacement n home t.cells i) * n + dist n t.cur t.hole

section Rearrange

variable {n : Nat} {home : α → Nat} {c₀ c' : Nat → Option α} {t t' : Shift α}

theorem cur_ne_hole {a : α} (hemp : t.cells t.hole = none) (ha : t.cells t.cur = some a) :
    t.cur ≠ t.hole := by
  intro h
  rw [h, hemp] at ha
  cases ha

/-- Moving an entry into the empty hole swaps the two cells. -/
theorem move_cells {a : α} (hemp : t.cells t.hole = none) (ha : t.cells t.cur = some a) :
    (t.move n a).cells = t.cells ∘ Equiv.swap t.hole t.cur := by
  funext i
  have hne := cur_ne_hole hemp ha
  simp only [Shift.move, Function.comp_apply]
  by_cases hc : i = t.cur
  · rw [hc, Function.update_self, Equiv.swap_apply_right, hemp]
  rw [Function.update_of_ne hc]
  by_cases hh : i = t.hole
  · rw [hh, Function.update_self, Equiv.swap_apply_left, ha]
  · rw [Function.update_of_ne hh, Equiv.swap_apply_of_ne_of_ne hh hc]

theorem swap_lt_iff {i j : Nat} (hi : i < n) (hj : j < n) (k : Nat) :
    Equiv.swap i j k < n ↔ k < n := by
  by_cases hki : k = i
  · rw [hki, Equiv.swap_apply_left]
    exact iff_of_true hj hi
  by_cases hkj : k = j
  · rw [hkj, Equiv.swap_apply_right]
    exact iff_of_true hi hj
  · rw [Equiv.swap_apply_of_ne_of_ne hki hkj]

theorem Rearranged.next (h : Rearranged n c₀ t)
    (hstep : shiftBody n home t = some (.inl t')) : Rearranged n c₀ t' := by
  have hsucc : (t.cur + 1) % n < n := Nat.mod_lt _ (by have := h.cur_lt; omega)
  obtain ⟨a, ha, ⟨-, rfl⟩ | ⟨-, rfl⟩⟩ := shiftBody_next hstep
  · obtain ⟨π, hπ, hcells⟩ := h.perm
    refine ⟨h.cur_lt, hsucc, by simp [Shift.move],
      (Equiv.swap t.hole t.cur).trans π, ?_, ?_⟩
    · intro i
      rw [Equiv.trans_apply, hπ, swap_lt_iff h.hole_lt h.cur_lt]
    · rw [move_cells h.empty ha, hcells]
      rfl
  · exact ⟨h.hole_lt, hsucc, h.empty, h.perm⟩

theorem displacement_le (hhome : ∀ a, home a < n) (c : Nat → Option α) (i : Nat) :
    displacement n home c i ≤ n - 1 := by
  unfold displacement
  cases c i with
  | none => exact Nat.zero_le _
  | some a =>
      have h : dist n (home a) i < n := dist_lt (hhome a)
      exact Nat.le_sub_one_of_lt h

/-- A move lowers the total displacement. -/
theorem sum_displacement_move (hhome : ∀ a, home a < n) {a : α} (hhole : t.hole < n)
    (hcur : t.cur < n) (hemp : t.cells t.hole = none) (ha : t.cells t.cur = some a)
    (hlt : dist n t.hole t.cur < dist n (home a) t.cur) :
    ∑ i ∈ Finset.range n, displacement n home (t.move n a).cells i <
      ∑ i ∈ Finset.range n, displacement n home t.cells i := by
  have hne := cur_ne_hole hemp ha
  have hmem : t.cur ∈ Finset.range n := Finset.mem_range.mpr hcur
  have hmem' : t.hole ∈ (Finset.range n).erase t.cur :=
    Finset.mem_erase.mpr ⟨hne.symm, Finset.mem_range.mpr hhole⟩
  have hrest : ∑ i ∈ ((Finset.range n).erase t.cur).erase t.hole,
        displacement n home (t.move n a).cells i =
      ∑ i ∈ ((Finset.range n).erase t.cur).erase t.hole,
        displacement n home t.cells i := by
    apply Finset.sum_congr rfl
    intro i hi
    simp only [Finset.mem_erase] at hi
    simp only [displacement, Shift.move, Function.update_of_ne hi.2.1,
      Function.update_of_ne hi.1]
  rw [← Finset.add_sum_erase _ _ hmem, ← Finset.add_sum_erase _ _ hmem',
    ← Finset.add_sum_erase _ _ hmem, ← Finset.add_sum_erase _ _ hmem', hrest]
  have hnew : displacement n home (t.move n a).cells t.cur = 0 := by
    simp [displacement, Shift.move]
  have hnew' : displacement n home (t.move n a).cells t.hole = dist n (home a) t.hole := by
    simp [displacement, Shift.move, hne.symm]
  have hold : displacement n home t.cells t.cur = dist n (home a) t.cur := by
    simp [displacement, ha]
  have hold' : displacement n home t.cells t.hole = 0 := by
    simp [displacement, hemp]
  rw [hnew, hnew', hold, hold']
  -- the hole lies between the home of the entry and the entry
  have hshort := dist_between (hhome a) hhole hcur hne.symm hlt
  omega

theorem shiftMeasure_next (hhome : ∀ a, home a < n) (h : Rearranged n c₀ t)
    (hstep : shiftBody n home t = some (.inl t')) :
    shiftMeasure n home t' < shiftMeasure n home t := by
  have hcur := h.cur_lt
  have hsucc : (t.cur + 1) % n < n := Nat.mod_lt _ (by omega)
  obtain ⟨a, ha, ⟨hlt, rfl⟩ | ⟨-, rfl⟩⟩ := shiftBody_next hstep
  · have hsum := sum_displacement_move hhome h.hole_lt hcur h.empty ha hlt
    have hdist : dist n ((t.cur + 1) % n) t.cur < n := dist_lt hsucc
    have hmul := Nat.mul_le_mul_right n (Nat.succ_le_of_lt hsum)
    have hmove : shiftMeasure n home (t.move n a) =
        (∑ i ∈ Finset.range n, displacement n home (t.move n a).cells i) * n +
          dist n ((t.cur + 1) % n) t.cur := rfl
    rw [hmove, shiftMeasure]
    rw [Nat.succ_mul] at hmul
    omega
  · have hne := cur_ne_hole h.empty ha
    have hpos := dist_pos hcur h.hole_lt hne
    have hdist := succ_dist hcur h.hole_lt hne
    have hpass : shiftMeasure n home (t.pass n) =
        (∑ i ∈ Finset.range n, displacement n home t.cells i) * n +
          dist n ((t.cur + 1) % n) t.hole := rfl
    rw [hpass, shiftMeasure, hdist]
    omega

theorem shiftMeasure_lt (hhome : ∀ a, home a < n) (hcur : t.cur < n) :
    shiftMeasure n home t < n ^ 3 + 1 := by
  have hsum : ∑ i ∈ Finset.range n, displacement n home t.cells i ≤ n * (n - 1) := by
    have h := Finset.sum_le_card_nsmul (Finset.range n)
      (displacement n home t.cells) (n - 1) (fun i _ => displacement_le hhome _ i)
    simpa using h
  have hdist : dist n t.cur t.hole < n := dist_lt hcur
  have hmul := Nat.mul_le_mul_right n hsum
  obtain ⟨k, rfl⟩ : ∃ k, n = k + 1 := ⟨n - 1, by omega⟩
  have hpow : (k + 1) ^ 3 = (k + 1) * k * (k + 1) + k * (k + 1) + (k + 1) := by ring
  rw [Nat.add_sub_cancel] at hmul
  unfold shiftMeasure
  omega

/-- The backward shift ends on every table, full ones included, and only
rearranges the entries. -/
theorem shift_returns (hhome : ∀ a, home a < n) (h : Rearranged n c₀ t) :
    ∃ c', Loop.run (shiftBody n home) (n ^ 3 + 1) t = some c' :=
  Loop.run_measure (Rearranged n c₀) (shiftMeasure n home)
    (fun _ _ => shiftBody_ne_none)
    (fun _ _ ht hstep => ⟨ht.next hstep, shiftMeasure_next hhome ht hstep⟩)
    h (shiftMeasure_lt hhome h.cur_lt)

theorem shift_rearranges (h : Rearranged n c₀ t) {fuel : Nat}
    (hrun : Loop.run (shiftBody n home) fuel t = some c') : Rearrangement n c₀ c' := by
  apply Loop.run_invariant (Rearranged n c₀) (Rearrangement n c₀)
    (fun _ _ hu hstep => hu.next hstep) ?_ h hrun
  intro u q hu hleave
  rw [(shiftBody_leave hleave).2]
  exact hu.perm

end Rearrange

end UltraHft.Lib.OpenAddressing
