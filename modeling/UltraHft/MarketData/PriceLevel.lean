import UltraHft.Lib.Loop
import UltraHft.MarketData.Order

/-!
# Price levels

`price_level.hpp`: the orders of one price, linked in order of arrival through
the `next` and `prev` fields of the orders themselves.
-/

namespace UltraHft.MarketData

structure PriceLevel where
  price_ : UInt64 := 0
  head_ : Ptr := none
  tail_ : Ptr := none
  deriving Repr, DecidableEq, Inhabited

namespace PriceLevel

def make (price : UInt64) : PriceLevel := { price_ := price }

/-- `add_order`.  The tail is null only while the head is, so the write through
`tail_` always has a target. -/
def addOrder (lv : PriceLevel) (h : Heap) (order : Nat) : PriceLevel × Heap :=
  match lv.head_ with
  | none =>
      let h := h.setNext order none
      let h := h.setPrev order none
      ({ lv with head_ := some order, tail_ := some order }, h)
  | some _ =>
      let h := match lv.tail_ with
        | some tail => h.setNext tail (some order)
        | none => h
      let h := h.setPrev order lv.tail_
      let h := h.setNext order none
      ({ lv with tail_ := some order }, h)

/-- `remove_order`, first half: the link that led to `order`. -/
def bypassNext (lv : PriceLevel) (h : Heap) (order : Nat) : PriceLevel × Heap :=
  match (h order).prev with
  | some p => (lv, h.setNext p (h order).next)
  | none => ({ lv with head_ := (h order).next }, h)

/-- `remove_order`, second half: the link that led back to `order`. -/
def bypassPrev (lv : PriceLevel) (h : Heap) (order : Nat) : PriceLevel × Heap :=
  match (h order).next with
  | some q => (lv, h.setPrev q (h order).prev)
  | none => ({ lv with tail_ := (h order).prev }, h)

def removeOrder (lv : PriceLevel) (h : Heap) (order : Nat) : PriceLevel × Heap :=
  let (lv, h) := lv.bypassNext h order
  lv.bypassPrev h order

def isEmpty (lv : PriceLevel) : Bool := lv.head_.isNone

/-- One iteration of `get_total_qty`: the order it is at and the `total`. -/
def totalBody (h : Heap) (s : Ptr × UInt32) : Option ((Ptr × UInt32) ⊕ UInt32) :=
  match s.1 with
  | none => some (.inr s.2)
  | some order => some (.inl ((h order).next, s.2 + (h order).remainingQty))

/-- `get_total_qty`, with at most `fuel` iterations. -/
def getTotalQty (fuel : Nat) (lv : PriceLevel) (h : Heap) : Option UInt32 :=
  Lib.Loop.run (totalBody h) fuel (lv.head_, 0)

end PriceLevel

end UltraHft.MarketData
