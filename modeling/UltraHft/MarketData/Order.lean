/-!
# Orders

The `Order` record that the book stores inline.  A pointer to a stored order is
the index of the hash-table slot it lives in; `none` is the null pointer.
-/

namespace UltraHft.MarketData

inductive Side where
  | buy
  | sell
  deriving Repr, DecidableEq, Inhabited

/-- An `Order*` into the slot array. -/
abbrev Ptr := Option Nat

structure Order where
  orderId : UInt64 := 0
  instrumentId : UInt32 := 0
  side : Side := .buy
  price : UInt64 := 0
  qty : UInt32 := 0
  remainingQty : UInt32 := 0
  next : Ptr := none
  prev : Ptr := none
  deriving Repr, DecidableEq, Inhabited

/-- The five-argument constructor: nothing is filled yet and nothing linked. -/
def Order.make (orderId : UInt64) (instrumentId : UInt32) (side : Side)
    (price : UInt64) (qty : UInt32) : Order :=
  { orderId, instrumentId, side, price, qty, remainingQty := qty }

abbrev Heap := Nat → Order

namespace Heap

def setNext (h : Heap) (p : Nat) (q : Ptr) : Heap :=
  fun i => if i = p then { h i with next := q } else h i

def setPrev (h : Heap) (p : Nat) (q : Ptr) : Heap :=
  fun i => if i = p then { h i with prev := q } else h i

def setRemainingQty (h : Heap) (p : Nat) (r : UInt32) : Heap :=
  fun i => if i = p then { h i with remainingQty := r } else h i

end Heap

end UltraHft.MarketData
