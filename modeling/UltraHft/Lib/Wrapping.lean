import Mathlib.Algebra.Order.Ring.Nat

/-!
# Quotients of a wrapped dividend

A dividend that wrapped at `m` has lost at least `m`, so its quotient by any
divisor up to `m` is too small.
-/

namespace UltraHft.Lib.Wrapping

variable {S m n : Nat}

theorem mod_div_lt (hpos : 0 < n) (hn : n ≤ m) (hwraps : m ≤ S) : S % m / n < S / n := by
  have hm : 0 < m := hpos.trans_le hn
  have hlost : S % m + m ≤ S := by
    calc S % m + m
        ≤ S % m + m * (S / m) :=
          Nat.add_le_add_left (Nat.le_mul_of_pos_right m (Nat.div_pos hwraps hm)) _
      _ = S := Nat.mod_add_div ..
  calc S % m / n
      < S % m / n + 1 := Nat.lt_succ_self _
    _ = (S % m + n) / n := (Nat.add_div_right _ hpos).symm
    _ ≤ S / n := Nat.div_le_div_right (by omega)

theorem mod_div_eq_iff (hpos : 0 < n) (hn : n ≤ m) : S % m / n = S / n ↔ S < m := by
  constructor
  · intro heq
    by_contra hwraps
    exact (mod_div_lt hpos hn (Nat.le_of_not_lt hwraps)).ne heq
  · intro hlt
    rw [Nat.mod_eq_of_lt hlt]

end UltraHft.Lib.Wrapping
