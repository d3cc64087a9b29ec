import Mathlib.Data.List.Basic

/-!
# Lower bound by bisection

The library search that `std::lower_bound` prescribes: of a range of positions
partitioned by `before`, the first one for which `before` fails.
-/

namespace UltraHft.Lib.LowerBound

/-- At most `fuel` halvings of the `count` positions from `first` on. -/
def lowerBound (before : Nat → Bool) : Nat → Nat → Nat → Nat
  | 0, first, _ => first
  | fuel + 1, first, count =>
      if count = 0 then first
      else
        let step := count / 2
        let it := first + step
        if before it then lowerBound before fuel (it + 1) (count - (step + 1))
        else lowerBound before fuel first step

/-- The range is partitioned: `before` holds up to some position only. -/
def Partitioned (before : Nat → Bool) (n : Nat) : Prop :=
  ∀ i j, i ≤ j → j < n → before j → before i

/-- The search ends at the boundary: the positions before it satisfy `before`,
those from it on do not. -/
theorem lowerBound_spec {before : Nat → Bool} {n : Nat} (hpart : Partitioned before n)
    {fuel first count : Nat} (hfuel : count ≤ fuel) (hrange : first + count ≤ n)
    (hbelow : ∀ i < first, before i)
    (habove : ∀ i, first + count ≤ i → i < n → ¬ before i) :
    lowerBound before fuel first count ≤ n ∧
      (∀ i < lowerBound before fuel first count, before i) ∧
      ∀ i, lowerBound before fuel first count ≤ i → i < n → ¬ before i := by
  induction fuel generalizing first count with
  | zero =>
      obtain rfl : count = 0 := by omega
      exact ⟨hrange, hbelow, habove⟩
  | succ fuel ih =>
      unfold lowerBound
      by_cases hcount : count = 0
      · subst hcount
        rw [if_pos rfl]
        exact ⟨hrange, hbelow, habove⟩
      rw [if_neg hcount]
      have hstep : count / 2 < count := Nat.div_lt_self (by omega) (by omega)
      dsimp only
      by_cases hit : before (first + count / 2)
      · rw [if_pos hit]
        apply ih (by omega) (by omega)
        · intro i hi
          exact hpart i (first + count / 2) (by omega) (by omega) hit
        · intro i hi hin
          exact habove i (by omega) hin
      · rw [if_neg hit]
        apply ih (by omega) (by omega) hbelow
        intro i hi hin hbi
        exact hit (hpart (first + count / 2) i (by omega) hin hbi)

end UltraHft.Lib.LowerBound
