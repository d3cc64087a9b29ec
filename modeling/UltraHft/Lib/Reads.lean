import Mathlib.Data.List.Basic
import Mathlib.Data.Set.Insert

/-!
# Programs that read memory

A program reads bytes one after another, by their addresses, and goes on with
what it has read; a call that never returns is `hang`.  `eval` is its result on a
given memory and `reads` the addresses that it reads there on the way.
-/

namespace UltraHft.Lib

inductive Reads (α : Type) where
  | done (result : α)
  | read (addr : Nat) (next : UInt8 → Reads α)
  | hang

namespace Reads

variable {α β : Type} {mem : Nat → UInt8} {addr n : Nat} {s t : Set Nat}

def bind : Reads α → (α → Reads β) → Reads β
  | done a, f => f a
  | read addr next, f => read addr fun b => (next b).bind f
  | hang, _ => hang

instance : Monad Reads where
  pure := done
  bind := bind

def eval (mem : Nat → UInt8) : Reads α → Option α
  | done a => some a
  | read addr next => (next (mem addr)).eval mem
  | hang => none

def reads (mem : Nat → UInt8) : Reads α → List Nat
  | done _ => []
  | read addr next => addr :: (next (mem addr)).reads mem
  | hang => []

def byte (addr : Nat) : Reads UInt8 := read addr done

def bytes : Nat → Nat → Reads (List UInt8)
  | _, 0 => done []
  | addr, n + 1 => do
      let b ← byte addr
      let l ← bytes (addr + 1) n
      return b :: l

def ofOption : Option α → Reads α
  | some a => done a
  | none => hang

def slice (mem : Nat → UInt8) (addr n : Nat) : List UInt8 :=
  (List.range n).map fun i => mem (addr + i)

/-! ## Results -/

@[simp] theorem eval_pure (a : α) : eval mem (pure a) = some a := rfl

@[simp] theorem eval_byte : eval mem (byte addr) = some (mem addr) := rfl

@[simp] theorem eval_bind (p : Reads α) (f : α → Reads β) :
    eval mem (p >>= f) = (eval mem p).bind fun a => eval mem (f a) := by
  change eval mem (p.bind f) = _
  induction p with
  | done a => rfl
  | read addr next ih => exact ih (mem addr)
  | hang => rfl

@[simp] theorem eval_ite (c : Prop) [Decidable c] (p q : Reads α) :
    eval mem (if c then p else q) = if c then eval mem p else eval mem q := by
  split <;> rfl

@[simp] theorem eval_ofOption (o : Option α) : eval mem (ofOption o) = o := by
  cases o <;> rfl

@[simp] theorem length_slice : (slice mem addr n).length = n := by
  simp [slice]

theorem slice_succ : slice mem addr (n + 1) = mem addr :: slice mem (addr + 1) n := by
  simp only [slice, List.range_succ_eq_map, List.map_cons, List.map_map, Nat.add_zero]
  congr 1
  apply List.map_congr_left
  intro i _
  simp only [Function.comp_apply, Nat.add_assoc, Nat.add_comm 1 i]

theorem drop_slice (off : Nat) :
    (slice mem addr n).drop off = slice mem (addr + off) (n - off) := by
  apply List.ext_getElem
  · simp
  · intro i _ _
    simp [slice, Nat.add_assoc]

theorem take_slice {k : Nat} (h : k ≤ n) : (slice mem addr n).take k = slice mem addr k := by
  apply List.ext_getElem
  · simpa using h
  · intro i _ _
    simp [slice]

theorem getElem?_slice {i : Nat} (h : i < n) : (slice mem addr n)[i]? = some (mem (addr + i)) := by
  simp [slice, h]

theorem slice_add (m : Nat) :
    slice mem addr (m + n) = slice mem addr m ++ slice mem (addr + m) n := by
  calc
    _ = (slice mem addr (m + n)).take m ++ (slice mem addr (m + n)).drop m :=
      (List.take_append_drop m _).symm
    _ = _ := by rw [take_slice (Nat.le_add_right m n), drop_slice, Nat.add_sub_cancel_left]

def memoryOf (bytes : List UInt8) (i : Nat) : UInt8 := bytes.getD i 0

def Holds (mem : Nat → UInt8) (addr : Nat) (l : List UInt8) : Prop := slice mem addr l.length = l

section Holds

variable {l l₁ l₂ : List UInt8} {b : UInt8}

theorem holds_slice : Holds mem addr (slice mem addr n) := by
  unfold Holds
  rw [length_slice]

theorem holds_memoryOf (bytes : List UInt8) : Holds (memoryOf bytes) 0 bytes := by
  apply List.ext_getElem length_slice
  intro i _ hi
  simp [slice, memoryOf, hi]

theorem holds_cons : Holds mem addr (b :: l) ↔ mem addr = b ∧ Holds mem (addr + 1) l := by
  unfold Holds
  rw [List.length_cons, slice_succ, List.cons.injEq]

theorem holds_append :
    Holds mem addr (l₁ ++ l₂) ↔ Holds mem addr l₁ ∧ Holds mem (addr + l₁.length) l₂ := by
  unfold Holds
  rw [List.length_append, slice_add]
  constructor
  · intro h
    exact List.append_inj h length_slice
  · rintro ⟨h₁, h₂⟩
    rw [h₁, h₂]

theorem eq_slice_iff : l = slice mem addr n ↔ l.length = n ∧ Holds mem addr l := by
  constructor
  · rintro rfl
    exact ⟨length_slice, holds_slice⟩
  · rintro ⟨rfl, h⟩
    exact h.symm

theorem Holds.getElem? (h : Holds mem addr l) {i : Nat} (hi : i < l.length) :
    l[i]? = some (mem (addr + i)) := by
  rw [← h]
  exact getElem?_slice hi

end Holds

@[simp] theorem eval_bytes : eval mem (bytes addr n) = some (slice mem addr n) := by
  induction n generalizing addr with
  | zero => rfl
  | succ n ih => simp [bytes, ih, slice_succ]

/-- What the program comes to, if it returns, satisfies the postcondition. -/
def Ensures (mem : Nat → UInt8) (post : α → Prop) (p : Reads α) : Prop :=
  ∀ a, eval mem p = some a → post a

section Ensures

variable {post : β → Prop}

theorem ensures_pure {b : β} (h : post b) : Ensures mem post (pure b) := by
  intro b' hb
  obtain rfl := Option.some.inj hb
  exact h

theorem ensures_bind {p : Reads α} {f : α → Reads β}
    (hf : ∀ a, eval mem p = some a → Ensures mem post (f a)) : Ensures mem post (p >>= f) := by
  intro b hb
  rw [eval_bind] at hb
  obtain ⟨a, ha, hb⟩ := Option.bind_eq_some_iff.mp hb
  exact hf a ha b hb

theorem ensures_ite {c : Prop} [Decidable c] {p q : Reads β} (hp : c → Ensures mem post p)
    (hq : ¬ c → Ensures mem post q) : Ensures mem post (if c then p else q) := by
  split
  · exact hp ‹_›
  · exact hq ‹_›

end Ensures

/-! ## Addresses -/

@[simp] theorem reads_pure (a : α) : reads mem (pure a) = [] := rfl

@[simp] theorem reads_byte : reads mem (byte addr) = [addr] := rfl

theorem reads_bind (p : Reads α) (f : α → Reads β) :
    reads mem (p >>= f) =
      reads mem p ++ ((eval mem p).map fun a => reads mem (f a)).getD [] := by
  change reads mem (p.bind f) = _
  induction p with
  | done a => rfl
  | read addr next ih => exact congrArg (addr :: ·) (ih (mem addr))
  | hang => rfl

def Within (mem : Nat → UInt8) (s : Set Nat) (p : Reads α) : Prop := ∀ a ∈ p.reads mem, a ∈ s

theorem within_pure (a : α) : Within mem s (pure a) := by
  simp [Within]

theorem within_byte (h : addr ∈ s) : Within mem s (byte addr) := by
  simpa [Within] using h

theorem within_ofOption (o : Option α) : Within mem s (ofOption o) := by
  cases o <;> simp [Within, ofOption, reads]

/-- Sequencing: the second part has to stay within only after what the first
part can come to. -/
theorem within_bind {p : Reads α} {f : α → Reads β} (hp : Within mem s p)
    (hf : ∀ a, eval mem p = some a → Within mem s (f a)) : Within mem s (p >>= f) := by
  intro a ha
  rw [reads_bind] at ha
  rcases List.mem_append.mp ha with ha | ha
  · exact hp a ha
  · cases hr : eval mem p with
    | none => simp [hr] at ha
    | some r =>
        rw [hr] at ha
        exact hf r hr a ha

theorem within_ite {c : Prop} [Decidable c] {p q : Reads α} (hp : c → Within mem s p)
    (hq : ¬ c → Within mem s q) : Within mem s (if c then p else q) := by
  split
  · exact hp ‹_›
  · exact hq ‹_›

theorem Within.mono {p : Reads α} (h : Within mem s p) (hst : s ⊆ t) : Within mem t p :=
  fun a ha => hst (h a ha)

theorem within_bytes (h : ∀ i < n, addr + i ∈ s) : Within mem s (bytes addr n) := by
  induction n generalizing addr with
  | zero => exact within_pure []
  | succ n ih =>
      apply within_bind (within_byte (h 0 (by omega)))
      intro b _
      apply within_bind
      · apply ih
        intro i hi
        rw [Nat.add_assoc, Nat.add_comm 1]
        exact h (i + 1) (by omega)
      · intro l _
        exact within_pure _

end Reads

end UltraHft.Lib
