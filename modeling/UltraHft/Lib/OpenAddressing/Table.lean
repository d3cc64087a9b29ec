import UltraHft.Lib.Cyclic

/-!
# Linear probing on a ring of cells

A table is a ring of `n` cells, each empty or holding an entry, and every entry
has a home cell.  A lookup walks from the home of its key to the first cell
that is empty or holds the key.  It finds what is stored exactly when the table
is `Chained`: no empty cell lies between an entry and its home.
-/

namespace UltraHft.Lib.OpenAddressing

open UltraHft.Lib.Cyclic

variable {α κ : Type*} {n : Nat} {home : α → Nat} {c : Nat → Option α}

/-- Cell `q` lies on the probe path of the entry stored at `p`, before `p`. -/
def Crosses (n : Nat) (home : α → Nat) (c : Nat → Option α) (q p : Nat) : Prop :=
  ∃ a, c p = some a ∧ dist n (home a) q < dist n (home a) p

/-- No probe path crosses an empty cell. -/
def Chained (n : Nat) (home : α → Nat) (c : Nat → Option α) : Prop :=
  ∀ p < n, ∀ q < n, Crosses n home c q p → c q ≠ none

def KeysUnique (n : Nat) (key : α → κ) (c : Nat → Option α) : Prop :=
  ∀ p < n, ∀ q < n, ∀ a b, c p = some a → c q = some b → key a = key b → p = q

def stops [DecidableEq κ] (key : α → κ) (c : Nat → Option α) (k : κ) (i : Nat) : Bool :=
  match c i with
  | none => true
  | some a => key a == k

theorem KeysUnique.insert {key : α → κ} (huniq : KeysUnique n key c) {a : α}
    {j : Nat}
    (habs : ∀ p < n, p ≠ j → ∀ b, c p = some b → key b ≠ key a) :
    KeysUnique n key (Function.update c j (some a)) := by
  intro p hp q hq b d hb hd hkey
  by_cases hpj : p = j <;> by_cases hqj : q = j
  · rw [hpj, hqj]
  · rw [hpj, Function.update_self] at hb
    rw [Function.update_of_ne hqj] at hd
    obtain rfl := Option.some.inj hb
    exact (habs q hq hqj d hd hkey.symm).elim
  · rw [hqj, Function.update_self] at hd
    rw [Function.update_of_ne hpj] at hb
    obtain rfl := Option.some.inj hd
    exact (habs p hp hpj b hb hkey).elim
  · rw [Function.update_of_ne hpj] at hb
    rw [Function.update_of_ne hqj] at hd
    exact huniq p hp q hq b d hb hd hkey

section Lookup

variable [DecidableEq κ] {key : α → κ} {k : κ}

theorem stops_iff {i : Nat} :
    stops key c k i ↔ ∀ a, c i = some a → key a = k := by
  unfold stops
  cases c i <;> simp

theorem isFirst_of_entry (hch : Chained n home c) (huniq : KeysUnique n key c)
    {p : Nat} {a : α} (hp : p < n) (ha : c p = some a) :
    IsFirst n (stops key c (key a)) (home a) p := by
  refine ⟨hp, ?_, ?_⟩
  · rw [stops_iff, ha]
    intro b hb
    rw [Option.some.inj hb]
  · intro q hq hlt hstop
    have hocc : c q ≠ none := hch p hp q hq ⟨a, ha, hlt⟩
    obtain ⟨b, hb⟩ := Option.ne_none_iff_exists'.mp hocc
    have hkey : key b = key a := stops_iff.mp hstop b hb
    have hqp : q = p := huniq q hq p hp b a hb ha hkey
    rw [hqp] at hlt
    exact lt_irrefl _ hlt

/-- A probe for a stored key stops at its entry. -/
theorem entry_of_isFirst (hhome : ∀ b, home b < n) (hch : Chained n home c)
    (huniq : KeysUnique n key c) {p j : Nat} {a : α} (hp : p < n)
    (ha : c p = some a) (hj : IsFirst n (stops key c (key a)) (home a) j) : j = p :=
  hj.unique (hhome a) (isFirst_of_entry hch huniq hp ha)

theorem empty_of_isFirst {start j : Nat} (hj : IsFirst n (stops key c k) start j)
    (habs : ∀ p < n, ∀ a, c p = some a → key a ≠ k) : c j = none := by
  by_contra hocc
  obtain ⟨a, ha⟩ := Option.ne_none_iff_exists'.mp hocc
  exact habs j hj.1 a ha (stops_iff.mp hj.2.1 a ha)

/-- Storing an entry where its own probe ended keeps the table chained. -/
theorem Chained.insert (hch : Chained n home c)
    {a : α} {j : Nat} (hj : IsFirst n (stops key c k) (home a) j) :
    Chained n home (Function.update c j (some a)) := by
  rintro p hp q hq ⟨b, hb, hlt⟩
  by_cases hqj : q = j
  · rw [hqj, Function.update_self]
    simp
  rw [Function.update_of_ne hqj]
  by_cases hpj : p = j
  · -- the new entry: its probe passed every cell of its path
    subst hpj
    rw [Function.update_self] at hb
    obtain rfl := Option.some.inj hb
    intro hnone
    apply hj.2.2 q hq hlt
    rw [stops_iff, hnone]
    simp
  · rw [Function.update_of_ne hpj] at hb
    exact hch p hp q hq ⟨b, hb, hlt⟩

/-- Emptying a cell that no probe path crosses keeps the table chained. -/
theorem Chained.vacate (hch : Chained n home c) {o : Nat}
    (hno : ∀ p < n, ¬ Crosses n home c o p) :
    Chained n home (Function.update c o none) := by
  rintro p hp q hq ⟨a, ha, hlt⟩
  have hpo : p ≠ o := by
    rintro rfl
    simp at ha
  rw [Function.update_of_ne hpo] at ha
  have hqo : q ≠ o := by
    rintro rfl
    exact hno p hp ⟨a, ha, hlt⟩
  rw [Function.update_of_ne hqo]
  exact hch p hp q hq ⟨a, ha, hlt⟩

theorem Chained.replace (hch : Chained n home c) {a b : α} {j : Nat}
    (ha : c j = some a) (hab : home b = home a) :
    Chained n home (Function.update c j (some b)) := by
  rintro p hp q hq ⟨d, hd, hlt⟩
  by_cases hqj : q = j
  · rw [hqj, Function.update_self]
    simp
  rw [Function.update_of_ne hqj]
  by_cases hpj : p = j
  · subst hpj
    rw [Function.update_self] at hd
    obtain rfl := Option.some.inj hd
    rw [hab] at hlt
    exact hch p hp q hq ⟨a, ha, hlt⟩
  · rw [Function.update_of_ne hpj] at hd
    exact hch p hp q hq ⟨d, hd, hlt⟩

end Lookup

end UltraHft.Lib.OpenAddressing
