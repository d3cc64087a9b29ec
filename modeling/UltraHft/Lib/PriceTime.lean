import Mathlib.Algebra.Ring.Nat
import Mathlib.Data.Finset.Sort

/-!
# Price-time books

What a limit order book is for: the open orders in the order in which they came,
no id twice.  From them follow the prices of each side, best first, and at each
price the queue that a new execution meets.  Ids are of any type with decidable
equality and prices of any linear order.
-/

namespace UltraHft.Lib.PriceTime

inductive Side where
  | bid
  | ask
  deriving DecidableEq

structure Resting (ι π : Type*) where
  id : ι
  side : Side
  price : π
  left : ℕ
  deriving DecidableEq

structure Book (ι π : Type*) where
  orders : List (Resting ι π)
  distinct : (orders.map Resting.id).Nodup

inductive Call (ι π : Type*) where
  | add (o : Resting ι π)
  | cancel (id : ι)
  | execute (id : ι) (qty : ℕ)
  | skip

inductive Answer where
  | done (ok : Bool)
  | executed (qty : ℕ)
  deriving DecidableEq

namespace Book

variable {ι π : Type*}

def empty : Book ι π := ⟨[], List.nodup_nil⟩

def ids (b : Book ι π) : List ι := b.orders.map Resting.id

section Calls

variable [DecidableEq ι]

def find (b : Book ι π) (id : ι) : Option (Resting ι π) := b.orders.find? fun o => o.id = id

/-! ## Orders under an amendment -/

/-- What becomes of an order when the one of the id is left with `f left`. -/
def amended (id : ι) (f : ℕ → Option ℕ) (o : Resting ι π) : Option (Resting ι π) :=
  if o.id = id then (f o.left).map fun n => { o with left := n } else some o

theorem amended_id {id : ι} {f : ℕ → Option ℕ} {o o' : Resting ι π}
    (h : amended id f o = some o') : o'.id = o.id := by
  unfold amended at h
  split_ifs at h
  · obtain ⟨n, -, rfl⟩ := Option.map_eq_some_iff.mp h
    rfl
  · rw [Option.some.inj h]

theorem amended_of_ne {id : ι} (f : ℕ → Option ℕ) {o : Resting ι π} (h : o.id ≠ id) :
    amended id f o = some o := if_neg h

theorem amended_self {id : ι} (f : ℕ → Option ℕ) {o : Resting ι π} (h : o.id = id) :
    amended id f o = (f o.left).map fun n => { o with left := n } := if_pos h

theorem ids_amended (id : ι) (f : ℕ → Option ℕ) (l : List (Resting ι π)) :
    List.Sublist ((l.filterMap (amended id f)).map Resting.id) (l.map Resting.id) := by
  induction l with
  | nil => exact List.Sublist.refl _
  | cons o l ih =>
      cases ho : amended id f o with
      | none =>
          rw [List.filterMap_cons_none ho]
          exact ih.cons o.id
      | some o' =>
          rw [List.filterMap_cons_some ho, List.map_cons, List.map_cons, amended_id ho]
          exact ih.cons_cons o.id

theorem filterMap_amended_eq_self {id : ι} {f : ℕ → Option ℕ} {l : List (Resting ι π)}
    (h : ∀ o ∈ l, o.id = id → f o.left = some o.left) : l.filterMap (amended id f) = l := by
  induction l with
  | nil => rfl
  | cons o l ih =>
      have ho : amended id f o = some o := by
        by_cases hid : o.id = id
        · rw [amended_self f hid, h o List.mem_cons_self hid]
          rfl
        · exact amended_of_ne f hid
      rw [List.filterMap_cons_some ho, ih fun o' ho' => h o' (List.mem_cons_of_mem o ho')]

theorem filterMap_amended_of_notMem {id : ι} (f : ℕ → Option ℕ) {l : List (Resting ι π)}
    (h : ∀ o ∈ l, o.id ≠ id) : l.filterMap (amended id f) = l :=
  filterMap_amended_eq_self fun o ho hid => (h o ho hid).elim

/-! ## The calls -/

/-- Leave the order of the id with `f left`, or with nothing: then it is closed. -/
def amend (b : Book ι π) (id : ι) (f : ℕ → Option ℕ) : Book ι π :=
  ⟨b.orders.filterMap (amended id f), b.distinct.sublist (ids_amended id f b.orders)⟩

def push (b : Book ι π) (o : Resting ι π) (h : o.id ∉ b.ids) : Book ι π :=
  ⟨b.orders ++ [o], by
    rw [List.map_append, List.map_singleton, List.nodup_append]
    refine ⟨b.distinct, List.nodup_singleton _, ?_⟩
    intro x hx y hy heq
    rw [List.mem_singleton.mp hy] at heq
    exact h (heq ▸ hx)⟩

/-- What an execution leaves; it closes an order by taking all that was left,
if anything was. -/
def fill (qty left : ℕ) : Option ℕ := if 0 < left ∧ left ≤ qty then none else some (left - qty)

def taken (b : Book ι π) (id : ι) (qty : ℕ) : ℕ := (b.find id).elim 0 fun o => min qty o.left

def next (b : Book ι π) : Call ι π → Answer × Book ι π
  | .add o => if h : o.id ∈ b.ids then (.done false, b) else (.done true, b.push o h)
  | .cancel id => (.done (decide (id ∈ b.ids)), b.amend id fun _ => none)
  | .execute id qty => (.executed (b.taken id qty), b.amend id (fill qty))
  | .skip => (.done false, b)

theorem find_of_mem {b : Book ι π} {o : Resting ι π} (ho : o ∈ b.orders) :
    b.find o.id = some o := by
  obtain ⟨o', ho'⟩ : ∃ o', b.find o.id = some o' :=
    Option.isSome_iff_exists.mp (List.find?_isSome.mpr ⟨o, ho, by simp⟩)
  have hid : o'.id = o.id := by simpa using List.find?_some ho'
  rw [ho', List.inj_on_of_nodup_map b.distinct (List.mem_of_find?_eq_some ho') ho hid]

theorem find_of_notMem {b : Book ι π} {id : ι} (h : id ∉ b.ids) : b.find id = none := by
  apply List.find?_eq_none.mpr
  intro o ho hid
  exact h (List.mem_map.mpr ⟨o, ho, by simpa using hid⟩)

theorem taken_of_mem {b : Book ι π} {o : Resting ι π} (ho : o ∈ b.orders) (qty : ℕ) :
    b.taken o.id qty = min qty o.left := by
  rw [taken, find_of_mem ho]
  rfl

theorem taken_of_notMem {b : Book ι π} {id : ι} (h : id ∉ b.ids) (qty : ℕ) :
    b.taken id qty = 0 := by
  rw [taken, find_of_notMem h]
  rfl

theorem next_add {b : Book ι π} {o : Resting ι π} (h : o.id ∉ b.ids) :
    (b.next (.add o)).1 = .done true ∧ (b.next (.add o)).2.orders = b.orders ++ [o] := by
  rw [next, dif_neg h]
  exact ⟨rfl, rfl⟩

theorem next_cancel (b : Book ι π) (id : ι) :
    (b.next (.cancel id)).1 = .done (decide (id ∈ b.ids)) ∧
      (b.next (.cancel id)).2.orders = b.orders.filter fun o => o.id ≠ id := by
  refine ⟨rfl, ?_⟩
  change b.orders.filterMap (amended id fun _ => none) = _
  rw [← List.filterMap_eq_filter]
  congr 1
  funext o
  by_cases hid : o.id = id <;> simp [amended, Option.guard, hid]

/-- An execution that takes nothing leaves everything. -/
theorem fill_of_min {qty left : ℕ} (h : min qty left = 0) : fill qty left = some left := by
  rw [fill, if_neg (by omega)]
  congr 1
  omega

theorem length_next_le (b : Book ι π) (call : Call ι π) :
    (b.next call).2.orders.length ≤ b.orders.length + 1 := by
  have hamend : ∀ id f, (b.amend id f).orders.length ≤ b.orders.length + 1 := by
    intro id f
    have hlen : (b.amend id f).orders.length ≤ b.orders.length :=
      List.length_filterMap_le _ _
    omega
  cases call with
  | add o =>
      rw [next]
      split_ifs
      · exact Nat.le_succ _
      · simp [push]
  | cancel id => exact hamend id _
  | execute id qty => exact hamend id _
  | skip => exact Nat.le_succ _

end Calls

/-! ## What the book shows -/

section Shown

variable [LinearOrder π] {b : Book ι π} {side : Side} {price : π}

/-- The orders of a side and price, oldest first. -/
def queue (b : Book ι π) (side : Side) (price : π) : List (Resting ι π) :=
  b.orders.filter fun o => o.side = side ∧ o.price = price

def depth (b : Book ι π) (side : Side) (price : π) : ℕ :=
  ((b.queue side price).map Resting.left).sum

def prices (b : Book ι π) (side : Side) : Finset π :=
  ((b.orders.filter fun o => o.side = side).map Resting.price).toFinset

/-- The prices of a side, best first. -/
def ladder (b : Book ι π) : Side → List π
  | .bid => (b.prices .bid).sort (· ≥ ·)
  | .ask => (b.prices .ask).sort (· ≤ ·)

def best (b : Book ι π) (side : Side) : Option π := (b.ladder side).head?

theorem mem_prices :
    price ∈ b.prices side ↔ ∃ o ∈ b.orders, o.side = side ∧ o.price = price := by
  simp [prices, and_assoc]

@[simp] theorem mem_ladder : price ∈ b.ladder side ↔ price ∈ b.prices side := by
  cases side <;> exact Finset.mem_sort _

theorem eq_ladder {l : List π}
    (hsorted : l.Pairwise fun p q => match side with
      | .bid => q < p
      | .ask => p < q)
    (hmem : ∀ p, p ∈ l ↔ p ∈ b.prices side) : l = b.ladder side := by
  have hset : l.toFinset = b.prices side := by
    ext p
    rw [List.mem_toFinset, hmem]
  cases side with
  | bid =>
      have hnodup : l.Nodup := hsorted.imp fun h => (ne_of_lt h).symm
      rw [ladder, ← hset]
      exact ((List.toFinset_sort (· ≥ ·) hnodup).mpr (hsorted.imp le_of_lt)).symm
  | ask =>
      have hnodup : l.Nodup := hsorted.imp fun h => ne_of_lt h
      rw [ladder, ← hset]
      exact ((List.toFinset_sort (· ≤ ·) hnodup).mpr (hsorted.imp le_of_lt)).symm

end Shown

end Book

end UltraHft.Lib.PriceTime
