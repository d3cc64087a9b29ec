import Mathlib.Data.Nat.Bitwise
import UltraHft.Lib.Loop

/-!
# Distances on a ring of `n` positions

`dist n a b` is the number of forward steps from `a` to `b`.  Every inequality
between distances reduces, through `dist_from`, to one between offsets from a
common origin, where the ring is a line again.
-/

namespace UltraHft.Lib.Cyclic

/-- Forward steps from `a` to `b`. -/
def dist (n a b : Nat) : Nat := (b + n - a) % n

section Dist

variable {n a b c o : Nat}

theorem dist_eq (ha : a < n) (hb : b < n) :
    dist n a b = if a ≤ b then b - a else b + n - a := by
  unfold dist
  split_ifs with hab
  · rw [show b + n - a = (b - a) + n by omega, Nat.add_mod_right,
      Nat.mod_eq_of_lt (by omega)]
  · exact Nat.mod_eq_of_lt (by omega)

theorem dist_lt (ha : a < n) : dist n a b < n :=
  Nat.mod_lt _ (by omega)

@[simp] theorem dist_self (ha : a < n) : dist n a a = 0 := by
  rw [dist_eq ha ha]
  simp

theorem dist_eq_zero (ha : a < n) (hb : b < n) : dist n a b = 0 ↔ a = b := by
  rw [dist_eq ha hb]
  split_ifs <;> omega

theorem dist_pos (ha : a < n) (hb : b < n) (hab : a ≠ b) : 0 < dist n a b := by
  have h := dist_eq_zero ha hb
  omega

theorem dist_from (ho : o < n) (ha : a < n) (hb : b < n) :
    dist n a b =
      if dist n o a ≤ dist n o b then dist n o b - dist n o a
      else dist n o b + n - dist n o a := by
  rw [dist_eq ha hb, dist_eq ho ha, dist_eq ho hb]
  split_ifs <;> omega

theorem dist_inj (ho : o < n) (ha : a < n) (hb : b < n)
    (h : dist n o a = dist n o b) : a = b := by
  rw [← dist_eq_zero ha hb, dist_from ho ha hb]
  simp [h]

theorem dist_split (ha : a < n) (hb : b < n) (hc : c < n)
    (h : dist n a b ≤ dist n a c) : dist n a c = dist n a b + dist n b c := by
  rw [dist_from ha hb hc, if_pos h]
  omega

/-- What starts farther back from `c` passes `b` on the way. -/
theorem dist_between (ha : a < n) (hb : b < n) (hc : c < n) (hbc : b ≠ c)
    (h : dist n b c < dist n a c) : dist n a b < dist n a c := by
  have hpos := dist_pos hb hc hbc
  have hlt : dist n a b < n := dist_lt ha
  rw [dist_from ha hb hc] at h hpos
  split_ifs at h hpos <;> omega

theorem mod_succ (ha : a < n) : (a + 1) % n = if a + 1 = n then 0 else a + 1 := by
  split_ifs with h
  · rw [h, Nat.mod_self]
  · exact Nat.mod_eq_of_lt (by omega)

theorem dist_succ (ha : a < n) (hb : b < n) (h : dist n a b + 1 < n) :
    dist n a ((b + 1) % n) = dist n a b + 1 := by
  have hsucc : (b + 1) % n < n := Nat.mod_lt _ (by omega)
  rw [dist_eq ha hb] at h
  rw [dist_eq ha hsucc, dist_eq ha hb, mod_succ hb]
  split_ifs at h ⊢ <;> omega

theorem succ_dist (ha : a < n) (hb : b < n) (hab : a ≠ b) :
    dist n ((a + 1) % n) b = dist n a b - 1 := by
  have hsucc : (a + 1) % n < n := Nat.mod_lt _ (by omega)
  rw [dist_eq hsucc hb, dist_eq ha hb, mod_succ ha]
  split_ifs <;> omega

theorem add_dist (ha : a < n) (hb : b < n) : (a + dist n a b) % n = b := by
  rw [dist_eq ha hb]
  split_ifs with h
  · rw [show a + (b - a) = b by omega, Nat.mod_eq_of_lt hb]
  · rw [show a + (b + n - a) = b + n by omega, Nat.add_mod_right, Nat.mod_eq_of_lt hb]

theorem dist_add (ha : a < n) {d : Nat} (hd : d < n) :
    dist n a ((a + d) % n) = d := by
  have hlt : (a + d) % n < n := Nat.mod_lt _ (by omega)
  rw [dist_eq ha hlt]
  by_cases h : a + d < n
  · rw [Nat.mod_eq_of_lt h]
    split_ifs <;> omega
  · rw [Nat.mod_eq_sub_mod (by omega), Nat.mod_eq_of_lt (by omega)]
    split_ifs <;> omega

theorem iterate_succ_mod (ha : a < n) (d : Nat) :
    (fun i => (i + 1) % n)^[d] a = (a + d) % n := by
  induction d with
  | zero => exact (Nat.mod_eq_of_lt ha).symm
  | succ d ih =>
      rw [Function.iterate_succ_apply', ih]
      simp [Nat.add_assoc]

theorem iterate_succ_self (ha : a < n) : (fun i => (i + 1) % n)^[n] a = a := by
  rw [iterate_succ_mod ha, Nat.add_mod_right, Nat.mod_eq_of_lt ha]

theorem existsUnique_iterate (ha : a < n) (hb : b < n) :
    ∃! d, d < n ∧ (fun i => (i + 1) % n)^[d] a = b := by
  refine ⟨dist n a b, ⟨dist_lt ha, ?_⟩, ?_⟩
  · rw [iterate_succ_mod ha, add_dist ha hb]
  · intro d ⟨hd, hstep⟩
    rw [iterate_succ_mod ha] at hstep
    rw [← hstep, dist_add ha hd]

end Dist

/-! ## Scans around the ring -/

def IsFirst (n : Nat) (stop : Nat → Bool) (start j : Nat) : Prop :=
  j < n ∧ stop j ∧ ∀ q < n, dist n start q < dist n start j → ¬ stop q

section Scan

variable {n start : Nat} {stop : Nat → Bool}

theorem IsFirst.unique {j j' : Nat} (hs : start < n) (hj : IsFirst n stop start j)
    (hj' : IsFirst n stop start j') : j = j' := by
  apply dist_inj hs hj.1 hj'.1
  have h₁ : ¬ dist n start j' < dist n start j :=
    fun h => hj.2.2 j' hj'.1 h hj'.2.1
  have h₂ : ¬ dist n start j < dist n start j' :=
    fun h => hj'.2.2 j hj.1 h hj.2.1
  omega

theorem exists_isFirst (hs : start < n) (h : ∃ j < n, stop j) :
    ∃ j, IsFirst n stop start j := by
  obtain ⟨j, hj, hstop⟩ := h
  have hex : ∃ d, d < n ∧ stop ((start + d) % n) :=
    ⟨dist n start j, dist_lt hs, by rw [add_dist hs hj]; exact hstop⟩
  obtain ⟨hd, hfirst⟩ := Nat.find_spec hex
  refine ⟨(start + Nat.find hex) % n, Nat.mod_lt _ (by omega), hfirst, ?_⟩
  intro q hq hlt hstopq
  rw [dist_add hs hd] at hlt
  exact Nat.find_min hex hlt ⟨dist_lt hs, by rw [add_dist hs hq]; exact hstopq⟩

theorem run_scan_iff_isFirst (hs : start < n) {j : Nat} :
    Loop.run (Loop.scan (fun i => (i + 1) % n) stop) n start = some j ↔
      IsFirst n stop start j := by
  rw [Loop.run_scan_eq_some]
  constructor
  · rintro ⟨d, hd, rfl, hstop, hbefore⟩
    rw [iterate_succ_mod hs] at hstop ⊢
    refine ⟨Nat.mod_lt _ (by omega), hstop, ?_⟩
    intro q hq hlt
    rw [dist_add hs hd] at hlt
    have hq' := hbefore _ hlt
    rwa [iterate_succ_mod hs, add_dist hs hq] at hq'
  · rintro ⟨hj, hstop, hbefore⟩
    refine ⟨dist n start j, dist_lt hs, ?_, hstop, ?_⟩
    · rw [iterate_succ_mod hs, add_dist hs hj]
    · intro e he
      rw [iterate_succ_mod hs]
      have hen : e < n := he.trans (dist_lt hs)
      apply hbefore _ (Nat.mod_lt _ (by omega))
      rwa [dist_add hs hen]

end Scan

end UltraHft.Lib.Cyclic
