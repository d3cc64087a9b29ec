import Mathlib.Data.Nat.ModEq
import Mathlib.Tactic.Ring

/-!
# Fixed-width integers as bytes

`w` bytes hold the naturals below `256 ^ w`, least significant byte first
(`toLE`) or last (`toBE`).  Writing in one order and reading in the other
reverses the bytes of a number, which is `swap`.
-/

namespace UltraHft.Lib.Bytes

variable {w n m off : Nat} {l l₁ l₂ : List UInt8}

def toLE : Nat → Nat → List UInt8
  | 0, _ => []
  | w + 1, n => UInt8.ofNat n :: toLE w (n / 256)

def toBE (w n : Nat) : List UInt8 := (toLE w n).reverse

def ofLE (l : List UInt8) : Nat := l.foldr (fun b n => b.toNat + 256 * n) 0

def ofBE (l : List UInt8) : Nat := ofLE l.reverse

/-- What a little-endian reader makes of the bytes that a big-endian writer
wrote. -/
def swap (w n : Nat) : Nat := ofLE (toBE w n)

def field (off w : Nat) (l : List UInt8) : Nat := ofLE ((l.drop off).take w)

@[simp] theorem ofLE_nil : ofLE [] = 0 := rfl

@[simp] theorem ofLE_cons (b : UInt8) (l : List UInt8) :
    ofLE (b :: l) = b.toNat + 256 * ofLE l := rfl

@[simp] theorem length_toLE : (toLE w n).length = w := by
  induction w generalizing n with
  | zero => rfl
  | succ w ih => rw [toLE, List.length_cons, ih]

@[simp] theorem length_toBE : (toBE w n).length = w := by
  rw [toBE, List.length_reverse, length_toLE]

theorem ofLE_lt (l : List UInt8) : ofLE l < 256 ^ l.length := by
  induction l with
  | nil => simp
  | cons b l ih =>
      have hb := b.toNat_lt
      rw [ofLE_cons, List.length_cons, Nat.pow_succ]
      omega

theorem ofLE_toLE (h : n < 256 ^ w) : ofLE (toLE w n) = n := by
  induction w generalizing n with
  | zero =>
      rw [toLE, ofLE_nil]
      omega
  | succ w ih =>
      rw [Nat.pow_succ] at h
      rw [toLE, ofLE_cons, ih (by omega), UInt8.toNat_ofNat']
      omega

theorem toLE_ofLE (l : List UInt8) : toLE l.length (ofLE l) = l := by
  induction l with
  | nil => rfl
  | cons b l ih =>
      have hb := b.toNat_lt
      have hdiv : (b.toNat + 256 * ofLE l) / 256 = ofLE l := by omega
      have hhead : UInt8.ofNat (b.toNat + 256 * ofLE l) = b := by
        apply UInt8.toNat_inj.mp
        rw [UInt8.toNat_ofNat']
        omega
      rw [List.length_cons, toLE, ofLE_cons, hdiv, hhead, ih]

theorem ofBE_toBE (h : n < 256 ^ w) : ofBE (toBE w n) = n := by
  rw [ofBE, toBE, List.reverse_reverse, ofLE_toLE h]

theorem toBE_ofBE (l : List UInt8) : toBE l.length (ofBE l) = l := by
  rw [toBE, ofBE, ← List.length_reverse, toLE_ofLE, List.reverse_reverse]

theorem ofBE_lt (l : List UInt8) : ofBE l < 256 ^ l.length := by
  rw [ofBE, ← List.length_reverse]
  exact ofLE_lt l.reverse

theorem swap_lt : swap w n < 256 ^ w := by
  have h := ofLE_lt (toBE w n)
  rwa [length_toBE] at h

theorem field_head (h : l₁.length = w) : field 0 w (l₁ ++ l₂) = ofLE l₁ := by
  rw [field, List.drop_zero, List.take_left' h]

theorem field_last (h : l.length = w) : field 0 w l = ofLE l := by
  rw [field, List.drop_zero, List.take_of_length_le (Nat.le_of_eq h)]

theorem field_tail (h : l₁.length ≤ off) :
    field off w (l₁ ++ l₂) = field (off - l₁.length) w l₂ := by
  rw [field, field, List.drop_append, List.drop_eq_nil_of_le h, List.nil_append]

theorem field_cons (b : UInt8) : field (off + 1) w (b :: l) = field off w l := rfl

theorem field_byte (b : UInt8) : field 0 1 (b :: l) = b.toNat := by
  simp [field]

end UltraHft.Lib.Bytes
