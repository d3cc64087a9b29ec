import Mathlib.Algebra.Order.Field.Power
import Mathlib.Data.Int.Log
import Mathlib.Data.Rat.Floor
import Mathlib.Tactic.Linarith
import Mathlib.Tactic.NormNum
import Mathlib.Tactic.Positivity
import Mathlib.Tactic.Ring

/-!
# Floating point

The finite numbers of a binary format of 64 bits: integers of 53 bits, times a power
of two that is not below `2 ^ (-1074)`.  An operation gives the number nearest to the
exact result, of two the one with an even integer.  The exponent is not bounded from
above: a result that should overflow stays finite, and out of the range of every
integer type.
-/

namespace UltraHft.Lib

/-! ## The nearest integer -/

/-- The integer nearest to `x`, of two the even one. -/
def nearestEven (x : ℚ) : ℤ :=
  let k := ⌊x⌋
  if x - k < 1 / 2 ∨ x - k = 1 / 2 ∧ k % 2 = 0 then k else k + 1

theorem nearestEven_intCast (k : ℤ) : nearestEven k = k := by
  unfold nearestEven
  rw [Int.floor_intCast]
  exact if_pos (.inl (by norm_num))

theorem floor_le_nearestEven (x : ℚ) : ⌊x⌋ ≤ nearestEven x := by
  unfold nearestEven
  dsimp only
  split <;> omega

theorem nearestEven_le_floor_add_one (x : ℚ) : nearestEven x ≤ ⌊x⌋ + 1 := by
  unfold nearestEven
  dsimp only
  split <;> omega

theorem nearestEven_mono {x y : ℚ} (hxy : x ≤ y) : nearestEven x ≤ nearestEven y := by
  rcases (Int.floor_mono hxy).lt_or_eq with hlt | heq
  · calc nearestEven x
        ≤ ⌊x⌋ + 1 := nearestEven_le_floor_add_one x
      _ ≤ ⌊y⌋ := hlt
      _ ≤ nearestEven y := floor_le_nearestEven y
  · unfold nearestEven
    dsimp only
    rw [heq]
    -- The fraction of `y` is no smaller, so `y` is not rounded down if `x` is rounded up.
    have hfract : x - ⌊y⌋ ≤ y - ⌊y⌋ := sub_le_sub_right hxy _
    by_cases hdown : y - ⌊y⌋ < 1 / 2 ∨ y - ⌊y⌋ = 1 / 2 ∧ ⌊y⌋ % 2 = 0
    · have hdown' : x - ⌊y⌋ < 1 / 2 ∨ x - ⌊y⌋ = 1 / 2 ∧ ⌊y⌋ % 2 = 0 := by
        rcases hfract.lt_or_eq with hsmaller | hsame
        · rcases hdown with hdown | ⟨htie, -⟩
          · exact .inl (hsmaller.trans hdown)
          · exact .inl (htie ▸ hsmaller)
        · rw [hsame]
          exact hdown
      rw [if_pos hdown, if_pos hdown']
    · rw [if_neg hdown]
      split <;> omega

theorem abs_nearestEven_sub_le (x : ℚ) : |nearestEven x - x| ≤ 1 / 2 := by
  have hfloor : (⌊x⌋ : ℚ) ≤ x := Int.floor_le x
  have hnext : x < ⌊x⌋ + 1 := Int.lt_floor_add_one x
  unfold nearestEven
  dsimp only
  split
  · next hdown =>
      have hhalf : x - ⌊x⌋ ≤ 1 / 2 := by
        rcases hdown with hlt | ⟨heq, -⟩
        · exact hlt.le
        · exact heq.le
      rw [abs_le]
      constructor <;> linarith
  · next hup =>
      have hhalf : 1 / 2 ≤ x - ⌊x⌋ := le_of_not_gt fun hlt => hup (.inl hlt)
      rw [abs_le]
      push_cast
      constructor <;> linarith

theorem nearestEven_le {x : ℚ} {k : ℤ} (hxk : x ≤ k) : nearestEven x ≤ k := by
  rw [← nearestEven_intCast k]
  exact nearestEven_mono hxk

theorem le_nearestEven {x : ℚ} {k : ℤ} (hkx : k ≤ x) : k ≤ nearestEven x := by
  rw [← nearestEven_intCast k]
  exact nearestEven_mono hkx

/-! ## Rounding -/

/-- The exponent of the last place of `x`. -/
def place (x : ℚ) : ℤ := max (Int.log 2 |x| - 52) (-1074)

def nearest (x : ℚ) : ℚ := nearestEven (x / 2 ^ place x) * 2 ^ place x

def Representable (x : ℚ) : Prop :=
  ∃ k e : ℤ, |k| < 2 ^ 53 ∧ -1074 ≤ e ∧ x = k * 2 ^ e

section Rounding

variable {x y : ℚ} {k e : ℤ}

theorem two_zpow_pos (e : ℤ) : (0 : ℚ) < 2 ^ e := zpow_pos (by norm_num) e

theorem two_zpow_add (d e : ℤ) : (2 : ℚ) ^ (d + e) = 2 ^ d * 2 ^ e := zpow_add₀ (by norm_num) d e

theorem exists_two_zpow_eq {d e : ℤ} (hle : e ≤ d) : ∃ m : ℤ, (2 : ℚ) ^ d = m * 2 ^ e := by
  refine ⟨2 ^ (d - e).toNat, ?_⟩
  have hexponent : d = (d - e).toNat + e := by omega
  calc (2 : ℚ) ^ d
      = 2 ^ (((d - e).toNat : ℤ) + e) := by rw [← hexponent]
    _ = 2 ^ ((d - e).toNat : ℤ) * 2 ^ e := two_zpow_add _ _
    _ = ((2 ^ (d - e).toNat : ℤ) : ℚ) * 2 ^ e := by rw [zpow_natCast]; push_cast; rfl

theorem neg_1074_le_place (x : ℚ) : -1074 ≤ place x := le_max_right _ _

theorem abs_lt_place (x : ℚ) : |x| < 2 ^ 53 * 2 ^ place x := by
  have hlog : |x| < ((2 : ℕ) : ℚ) ^ (Int.log 2 |x| + 1) :=
    Int.lt_zpow_succ_log_self (by norm_num) |x|
  have hplace : Int.log 2 |x| - 52 ≤ place x := le_max_left _ _
  calc |x|
      < 2 ^ (Int.log 2 |x| + 1) := hlog
    _ ≤ 2 ^ (53 + place x) := zpow_le_zpow_right₀ (by norm_num) (by omega)
    _ = 2 ^ 53 * 2 ^ place x := two_zpow_add 53 _

theorem nearest_zero : nearest 0 = 0 := by
  rw [nearest, zero_div]
  exact mul_eq_zero_of_left (by exact_mod_cast nearestEven_intCast 0) _

theorem place_le (hk : |k| < 2 ^ 53) (hpos : k ≠ 0) (he : -1074 ≤ e) : place (k * 2 ^ e) ≤ e := by
  apply max_le _ he
  have habs : |(k : ℚ) * 2 ^ e| = |(k : ℚ)| * 2 ^ e := by
    rw [abs_mul, abs_of_pos (two_zpow_pos e)]
  have hk' : |(k : ℚ)| < 2 ^ 53 := by exact_mod_cast hk
  have hlt : |(k : ℚ) * 2 ^ e| < ((2 : ℕ) : ℚ) ^ (53 + e) := by
    rw [habs, Nat.cast_ofNat, two_zpow_add]
    exact mul_lt_mul_of_pos_right hk' (two_zpow_pos e)
  have hnonzero : 0 < |(k : ℚ) * 2 ^ e| := by
    rw [habs]
    exact mul_pos (abs_pos.mpr (Int.cast_ne_zero.mpr hpos)) (two_zpow_pos e)
  have hlog := (Int.lt_zpow_iff_log_lt (by norm_num) hnonzero).mp hlt
  omega

theorem nearest_of_representable (hx : Representable x) : nearest x = x := by
  obtain ⟨k, e, hk, he, rfl⟩ := hx
  by_cases hzero : k = 0
  · rw [hzero, Int.cast_zero, zero_mul]
    exact nearest_zero
  obtain ⟨m, hm⟩ := exists_two_zpow_eq (place_le hk hzero he)
  have hinteger : (k : ℚ) * 2 ^ e / 2 ^ place (k * 2 ^ e) = ((k * m : ℤ) : ℚ) := by
    rw [div_eq_iff (two_zpow_pos _).ne', Int.cast_mul, mul_assoc, ← hm]
  rw [nearest, hinteger, nearestEven_intCast, ← hinteger]
  exact div_mul_cancel₀ _ (two_zpow_pos _).ne'

/-- The bound may be attained, since it is a power of two. -/
theorem representable_mul (hk : |k| ≤ 2 ^ 53) (he : -1074 ≤ e) : Representable (k * 2 ^ e) := by
  rcases hk.lt_or_eq with hlt | heq
  · exact ⟨k, e, hlt, he, rfl⟩
  · obtain ⟨m, rfl⟩ : (2 : ℤ) ∣ k := by
      rw [← dvd_abs, heq]
      exact ⟨2 ^ 52, rfl⟩
    have hm : |m| < 2 ^ 53 := by
      have hdouble : |2 * m| = 2 * |m| := by
        rw [abs_mul]
        rfl
      omega
    refine ⟨m, e + 1, hm, by omega, ?_⟩
    rw [zpow_add_one₀ (by norm_num)]
    push_cast
    ring

theorem representable_natCast {n : ℕ} (hn : n ≤ 2 ^ 53) : Representable n := by
  have hk : |(n : ℤ)| ≤ 2 ^ 53 := by
    rw [Nat.abs_cast]
    exact_mod_cast hn
  simpa using representable_mul hk (show (-1074 : ℤ) ≤ 0 by norm_num)

theorem representable_one : Representable 1 := by
  simpa using representable_natCast (n := 1) (by norm_num)

theorem representable_nearest (x : ℚ) : Representable (nearest x) := by
  apply representable_mul _ (neg_1074_le_place x)
  have hscaled : |x / 2 ^ place x| < 2 ^ 53 := by
    rw [abs_div, abs_of_pos (two_zpow_pos _), div_lt_iff₀ (two_zpow_pos _)]
    exact abs_lt_place x
  obtain ⟨hlow, hhigh⟩ := abs_lt.mp hscaled
  rw [abs_le]
  constructor
  · exact le_nearestEven (by push_cast; exact hlow.le)
  · exact nearestEven_le (by push_cast; exact hhigh.le)

theorem place_mono (hpos : 0 < x) (hxy : x ≤ y) : place x ≤ place y := by
  unfold place
  rw [abs_of_pos hpos, abs_of_pos (hpos.trans_le hxy)]
  have hlog : Int.log 2 x ≤ Int.log 2 y := Int.log_mono_right hpos hxy
  omega

theorem nearest_nonneg (hx : 0 ≤ x) : 0 ≤ nearest x := by
  have hscaled : ((0 : ℤ) : ℚ) ≤ x / 2 ^ place x := by
    rw [Int.cast_zero]
    exact div_nonneg hx (two_zpow_pos _).le
  exact mul_nonneg (Int.cast_nonneg (le_nearestEven hscaled)) (two_zpow_pos _).le

/-- With the greater place comes a power of two between the two numbers. -/
theorem exists_between (hpos : 0 < x) (hlt : place x < place y) (hy : 0 < y) :
    x ≤ 2 ^ (52 + place y) ∧ 2 ^ (52 + place y) ≤ y := by
  have hplace : place y = Int.log 2 y - 52 := by
    have hbottom : -1074 < place y := (neg_1074_le_place x).trans_lt hlt
    unfold place at hbottom ⊢
    rw [abs_of_pos hy] at hbottom ⊢
    omega
  have hlog : Int.log 2 x + 1 ≤ Int.log 2 y := by
    have hle : Int.log 2 |x| - 52 ≤ place x := le_max_left _ _
    rw [abs_of_pos hpos] at hle
    omega
  have hexponent : 52 + place y = Int.log 2 y := by omega
  rw [hexponent]
  constructor
  · calc x
        ≤ ((2 : ℕ) : ℚ) ^ (Int.log 2 x + 1) := (Int.lt_zpow_succ_log_self (by norm_num) x).le
      _ ≤ 2 ^ Int.log 2 y := zpow_le_zpow_right₀ (by norm_num) hlog
  · exact Int.zpow_log_le_self (by norm_num) hy

theorem nearest_le_of_le_mul (hxk : x ≤ k * 2 ^ place x) : nearest x ≤ k * 2 ^ place x := by
  have hscaled : x / 2 ^ place x ≤ k := (div_le_iff₀ (two_zpow_pos _)).mpr hxk
  exact mul_le_mul_of_nonneg_right (Int.cast_le.mpr (nearestEven_le hscaled)) (two_zpow_pos _).le

theorem le_nearest_of_mul_le (hkx : k * 2 ^ place x ≤ x) : k * 2 ^ place x ≤ nearest x := by
  have hscaled : (k : ℚ) ≤ x / 2 ^ place x := (le_div_iff₀ (two_zpow_pos _)).mpr hkx
  exact mul_le_mul_of_nonneg_right (Int.cast_le.mpr (le_nearestEven hscaled)) (two_zpow_pos _).le

theorem abs_nearest_sub_le (hx : 0 ≤ x) (hle : x ≤ 2 ^ (52 + e)) (he : -1074 ≤ e) :
    |nearest x - x| ≤ 2 ^ e / 2 := by
  rcases hx.eq_or_lt with rfl | hpos
  · rw [nearest_zero, sub_zero, abs_zero]
    exact (half_pos (two_zpow_pos e)).le
  have hlog : Int.log 2 x ≤ 52 + e := by
    rw [← Int.log_zpow (R := ℚ) one_lt_two (52 + e), Nat.cast_ofNat]
    exact Int.log_mono_right hpos hle
  have hplace : place x ≤ e := by
    apply max_le _ he
    rw [abs_of_pos hpos]
    omega
  have hscale : nearest x - x =
      (nearestEven (x / 2 ^ place x) - x / 2 ^ place x) * 2 ^ place x := by
    rw [nearest, sub_mul, div_mul_cancel₀ _ (two_zpow_pos _).ne']
  calc |nearest x - x|
      = |nearestEven (x / 2 ^ place x) - x / 2 ^ place x| * 2 ^ place x := by
        rw [hscale, abs_mul, abs_of_pos (two_zpow_pos _)]
    _ ≤ 1 / 2 * 2 ^ place x := by
        gcongr
        exact abs_nearestEven_sub_le _
    _ ≤ 1 / 2 * 2 ^ e := by
        gcongr
        norm_num
    _ = 2 ^ e / 2 := by ring

theorem nearest_mono (hx : 0 ≤ x) (hxy : x ≤ y) : nearest x ≤ nearest y := by
  rcases hx.eq_or_lt with rfl | hpos
  · rw [nearest_zero]
    exact nearest_nonneg hxy
  rcases (place_mono hpos hxy).eq_or_lt with hsame | hlt
  · unfold nearest
    rw [hsame]
    have hscaled : x / 2 ^ place y ≤ y / 2 ^ place y :=
      div_le_div_of_nonneg_right hxy (two_zpow_pos _).le
    exact mul_le_mul_of_nonneg_right (Int.cast_le.mpr (nearestEven_mono hscaled))
      (two_zpow_pos _).le
  · obtain ⟨hbelow, habove⟩ := exists_between hpos hlt (hpos.trans_le hxy)
    have hpower : (2 : ℚ) ^ (52 + place y) = ((2 ^ 52 : ℤ) : ℚ) * 2 ^ place y := by
      rw [two_zpow_add]
      norm_num
    obtain ⟨m, hm⟩ := exists_two_zpow_eq (show place x ≤ 52 + place y by omega)
    calc nearest x
        ≤ m * 2 ^ place x := nearest_le_of_le_mul (hm ▸ hbelow)
      _ = ((2 ^ 52 : ℤ) : ℚ) * 2 ^ place y := by rw [← hm, hpower]
      _ ≤ nearest y := le_nearest_of_mul_le (hpower ▸ habove)

theorem nearest_le (hx : 0 ≤ x) (hxy : x ≤ y) (hy : Representable y) : nearest x ≤ y := by
  rw [← nearest_of_representable hy]
  exact nearest_mono hx hxy

theorem le_nearest (hx : 0 ≤ x) (hxy : x ≤ y) (hrep : Representable x) : x ≤ nearest y := by
  rw [← nearest_of_representable hrep]
  exact nearest_mono hx hxy

theorem lt_of_lt_nearest (hx : Representable x) (hy : 0 ≤ y) (hlt : x < nearest y) : x < y := by
  by_contra hle
  exact absurd hlt (not_lt.mpr (nearest_le hy (not_lt.mp hle) hx))

/-- Rounding up adds at most the unit roundoff. -/
theorem nearest_le_mul (hx : 2 ^ (-1022 : ℤ) ≤ x) : nearest x ≤ x * (1 + 2 ^ (-53 : ℤ)) := by
  have hpos : 0 < x := (two_zpow_pos _).trans_le hx
  have hlog : -1022 ≤ Int.log 2 x :=
    (Int.zpow_le_iff_le_log (by norm_num) hpos).mp (by simpa using hx)
  have hplace : place x = -52 + Int.log 2 x := by
    unfold place
    rw [abs_of_pos hpos]
    omega
  have hulp : (2 : ℚ) ^ place x ≤ 2 ^ (-52 : ℤ) * x := by
    rw [hplace, two_zpow_add]
    exact mul_le_mul_of_nonneg_left (Int.zpow_log_le_self (by norm_num) hpos) (two_zpow_pos _).le
  have herror := (abs_le.mp (abs_nearestEven_sub_le (x / 2 ^ place x))).2
  have hscaled : (nearestEven (x / 2 ^ place x) : ℚ) ≤ x / 2 ^ place x + 1 / 2 := by linarith
  calc nearest x
      ≤ (x / 2 ^ place x + 1 / 2) * 2 ^ place x :=
        mul_le_mul_of_nonneg_right hscaled (two_zpow_pos _).le
    _ = x + 1 / 2 * 2 ^ place x := by
        rw [add_mul, div_mul_cancel₀ _ (two_zpow_pos _).ne']
    _ ≤ x + 1 / 2 * (2 ^ (-52 : ℤ) * x) := by gcongr
    _ = x * (1 + 2 ^ (-53 : ℤ)) := by
        norm_num
        ring

/-- Numbers from the power of two on are multiples of its last place. -/
theorem Representable.exists_mul (hx : Representable x) (hle : 2 ^ (52 + e) ≤ x) :
    ∃ k : ℤ, x = k * 2 ^ e := by
  obtain ⟨k, d, hk, -, rfl⟩ := hx
  have hk' : (k : ℚ) < 2 ^ 53 := by exact_mod_cast (le_abs_self k).trans_lt hk
  have hlt : (2 : ℚ) ^ (52 + e) < 2 ^ (53 + d) := by
    rw [two_zpow_add 53 d]
    exact hle.trans_lt (mul_lt_mul_of_pos_right hk' (two_zpow_pos d))
  have hexponent : 52 + e < 53 + d := (zpow_lt_zpow_iff_right₀ (by norm_num)).mp hlt
  obtain ⟨m, hm⟩ := exists_two_zpow_eq (show e ≤ d by omega)
  exact ⟨k * m, by rw [hm, Int.cast_mul, mul_assoc]⟩

theorem Representable.le_pred (hx : Representable x) (hk : 2 ^ 52 < k) (hlt : x < k * 2 ^ e) :
    x ≤ (k - 1 : ℤ) * 2 ^ e := by
  have hpred : (2 : ℚ) ^ (52 + e) ≤ (k - 1 : ℤ) * 2 ^ e := by
    rw [two_zpow_add]
    have hcast : ((2 ^ 52 : ℤ) : ℚ) ≤ (k - 1 : ℤ) := Int.cast_le.mpr (by omega)
    have hcast' : (2 : ℚ) ^ (52 : ℤ) ≤ (k - 1 : ℤ) := by exact_mod_cast hcast
    exact mul_le_mul_of_nonneg_right hcast' (two_zpow_pos e).le
  rcases le_total x (2 ^ (52 + e)) with hbelow | habove
  · exact hbelow.trans hpred
  · obtain ⟨m, rfl⟩ := hx.exists_mul habove
    have hm : m < k := Int.cast_lt.mp (lt_of_mul_lt_mul_right hlt (two_zpow_pos e).le)
    exact mul_le_mul_of_nonneg_right (Int.cast_le.mpr (by omega)) (two_zpow_pos e).le

/-- A factor below one is enough to stay below a number. -/
theorem nearest_mul_lt (hx : 0 ≤ x) (hlt : x < 1) (hrep : Representable x) (hy : 1 ≤ y) :
    nearest (x * y) < y := by
  have hpred : x ≤ 1 - 2 ^ (-53 : ℤ) := by
    have h := hrep.le_pred (show (2 : ℤ) ^ 52 < 2 ^ 53 by norm_num) (e := -53)
      (by norm_num; exact hlt)
    norm_num at h ⊢
    exact h
  have hy0 : 0 < y := zero_lt_one.trans_le hy
  rcases le_total (x * y) (1 / 2) with hsmall | hlarge
  · have hhalf : Representable (1 / 2) := ⟨1, -1, by norm_num, by norm_num, by norm_num⟩
    have hround := nearest_le (mul_nonneg hx hy0.le) hsmall hhalf
    linarith
  · have hnormal : (2 : ℚ) ^ (-1022 : ℤ) ≤ x * y := by
      have hbinade : (2 : ℚ) ^ (-1022 : ℤ) ≤ 2 ^ (-1 : ℤ) :=
        zpow_le_zpow_right₀ one_le_two (by decide)
      rw [zpow_neg_one, ← one_div] at hbinade
      exact hbinade.trans hlarge
    calc nearest (x * y)
        ≤ x * y * (1 + 2 ^ (-53 : ℤ)) := nearest_le_mul hnormal
      _ ≤ (1 - 2 ^ (-53 : ℤ)) * y * (1 + 2 ^ (-53 : ℤ)) := by gcongr
      _ = y - y * 2 ^ (-106 : ℤ) := by
          norm_num
          ring
      _ < y := by
          have hpos := mul_pos hy0 (two_zpow_pos (-106))
          linarith

end Rounding

/-! ## The numbers -/

structure Binary64 where
  val : ℚ
  representable : Representable val
  deriving DecidableEq

namespace Binary64

def ofRat (x : ℚ) : Binary64 where
  val := nearest x
  representable := representable_nearest x

instance : NatCast Binary64 := ⟨fun n => ofRat n⟩

instance : IntCast Binary64 := ⟨fun n => ofRat n⟩

instance (n : ℕ) : OfNat Binary64 n := ⟨ofRat n⟩

instance : OfScientific Binary64 := ⟨fun m s e => ofRat (OfScientific.ofScientific m s e)⟩

instance : Sub Binary64 := ⟨fun x y => ofRat (x.val - y.val)⟩

instance : Mul Binary64 := ⟨fun x y => ofRat (x.val * y.val)⟩

/-- Of a division by zero nothing is said. -/
instance : Div Binary64 := ⟨fun x y => ofRat (x.val / y.val)⟩

instance : LE Binary64 := ⟨fun x y => x.val ≤ y.val⟩

instance : LT Binary64 := ⟨fun x y => x.val < y.val⟩

instance (x y : Binary64) : Decidable (x ≤ y) := inferInstanceAs (Decidable (x.val ≤ y.val))

instance (x y : Binary64) : Decidable (x < y) := inferInstanceAs (Decidable (x.val < y.val))

def trunc (x : Binary64) : ℤ := if 0 ≤ x.val then ⌊x.val⌋ else ⌈x.val⌉

/-- The conversion to an unsigned integer of 64 bits, where it is defined. -/
def toUInt64 (x : Binary64) : Option UInt64 :=
  if 0 ≤ x.trunc ∧ x.trunc < 2 ^ 64 then some (UInt64.ofNat x.trunc.toNat) else none

def toInt32 (x : Binary64) : Option ℤ :=
  if -2 ^ 31 ≤ x.trunc ∧ x.trunc < 2 ^ 31 then some x.trunc else none

variable {x : Binary64} {n : ℕ}

theorem ofNat_val (hn : n ≤ 2 ^ 53) : (OfNat.ofNat n : Binary64).val = n :=
  nearest_of_representable (representable_natCast hn)

theorem toUInt64_eq_some_iff {k : UInt64} (hx : 0 ≤ x.val) :
    x.toUInt64 = some k ↔ x.val < 2 ^ 64 ∧ UInt64.ofNat ⌊x.val⌋₊ = k := by
  have htrunc : x.trunc = ⌊x.val⌋ := if_pos hx
  have hrange : 0 ≤ x.trunc ∧ x.trunc < 2 ^ 64 ↔ x.val < 2 ^ 64 := by
    rw [htrunc, Int.floor_lt]
    exact ⟨fun h => by exact_mod_cast h.2,
      fun h => ⟨Int.floor_nonneg.mpr hx, by exact_mod_cast h⟩⟩
  unfold toUInt64
  by_cases hlt : x.val < 2 ^ 64
  · rw [if_pos (hrange.mpr hlt), htrunc, Option.some_inj]
    exact (and_iff_right hlt).symm
  · rw [if_neg fun h => hlt (hrange.mp h)]
    exact iff_of_false (by simp) fun h => hlt h.1

end Binary64

end UltraHft.Lib
