import UltraHft.Lib.LowerBound
import UltraHft.MarketData.FlatOrderMap
import UltraHft.MarketData.PriceLevel

/-!
# The order book

`order_book.hpp`: the order index and one sorted vector of price levels per
side.  A call that never returns, because the index does not, is `none`.
-/

namespace UltraHft.MarketData

open UltraHft.Lib

structure OrderBook where
  instrumentId_ : UInt32
  bids_ : List PriceLevel
  asks_ : List PriceLevel
  orders_ : FlatOrderMap

namespace OrderBook

def new (instrumentId : UInt32) : OrderBook :=
  { instrumentId_ := instrumentId
    bids_ := []
    asks_ := []
    orders_ := FlatOrderMap.new FlatOrderMap.kDefaultCapacity }

def heap (b : OrderBook) : Heap := b.orders_.heap

def levels (b : OrderBook) : Side → List PriceLevel
  | .buy => b.bids_
  | .sell => b.asks_

def setLevels (b : OrderBook) : Side → List PriceLevel → OrderBook
  | .buy, levels => { b with bids_ := levels }
  | .sell, levels => { b with asks_ := levels }

/-- The comparators handed to `find_or_insert`: bids descend, asks ascend. -/
def cmp : Side → UInt64 → UInt64 → Bool
  | .buy, a, b => decide (a > b)
  | .sell, a, b => decide (a < b)

/-- `std::lower_bound` on a vector of levels. -/
def lowerBound (levels : List PriceLevel) (price : UInt64)
    (cmp : UInt64 → UInt64 → Bool) : Nat :=
  LowerBound.lowerBound (fun i => (levels[i]?).any fun lv => cmp lv.price_ price)
    levels.length 0 levels.length

/-- The vector after the call and the position of the level in it. -/
def findOrInsert (levels : List PriceLevel) (price : UInt64)
    (cmp : UInt64 → UInt64 → Bool) : List PriceLevel × Nat :=
  let it := lowerBound levels price cmp
  if (levels[it]?).any (fun lv => lv.price_ == price) then (levels, it)
  else (levels.insertIdx it (PriceLevel.make price), it)

/-- Link a stored order into the level at position `it`. -/
def linkAt (b : OrderBook) (side : Side) (levels : List PriceLevel) (it stored : Nat) :
    OrderBook :=
  match levels[it]? with
  | none => b
  | some lv =>
      let (lv, h) := lv.addOrder b.heap stored
      { b with orders_ := b.orders_.withHeap h }.setLevels side (levels.set it lv)

/-- `add_order`; the argument is a pointer to an order outside the book. -/
def addOrder (b : OrderBook) (order : Option Order) : Option (Bool × OrderBook) :=
  match order with
  | none => some (false, b)
  | some order => do
      let found ← b.orders_.find order.orderId
      if found.isSome then some (false, b)
      else
        let (stored, orders_) ← b.orders_.insert order.orderId order
        let (levels, it) :=
          findOrInsert (b.levels order.side) order.price (cmp order.side)
        some (true, { b with orders_ }.linkAt order.side levels it stored)

/-- Unlink an order from the level of its price, if there is one, and drop the
level when it becomes empty. -/
def unlink (b : OrderBook) (order : Nat) : OrderBook :=
  let price := (b.heap order).price
  let side := (b.heap order).side
  let levels := b.levels side
  let it := levels.findIdx fun lv => lv.price_ == price
  match levels[it]? with
  | none => b
  | some lv =>
      let (lv, h) := lv.removeOrder b.heap order
      let levels := if lv.isEmpty then levels.eraseIdx it else levels.set it lv
      { b with orders_ := b.orders_.withHeap h }.setLevels side levels

def cancelOrder (b : OrderBook) (orderId : UInt64) : Option (Bool × OrderBook) := do
  let found ← b.orders_.find orderId
  match found with
  | none => some (false, b)
  | some order =>
      let b := b.unlink order
      let (_, orders_) ← b.orders_.erase orderId
      some (true, { b with orders_ })

def executeOrder (b : OrderBook) (orderId : UInt64) (executionQty : UInt32) :
    Option (UInt32 × OrderBook) := do
  let found ← b.orders_.find orderId
  match found with
  | none => some (0, b)
  | some order =>
      let remaining := (b.heap order).remainingQty
      if remaining = 0 then some (0, b)
      else
        let executed := if executionQty > remaining then remaining else executionQty
        let h := b.heap.setRemainingQty order (remaining - executed)
        let b := { b with orders_ := b.orders_.withHeap h }
        if (h order).remainingQty = 0 then
          let (_, b) ← b.cancelOrder orderId
          some (executed, b)
        else some (executed, b)

def bestBid (b : OrderBook) : Option UInt64 := b.bids_.head?.map PriceLevel.price_

def bestAsk (b : OrderBook) : Option UInt64 := b.asks_.head?.map PriceLevel.price_

/-- What the two queries share: `find_if`, and the total of the level it ends at. -/
def qtyAt (fuel : Nat) (b : OrderBook) (side : Side) (price : UInt64) : Option UInt32 :=
  match (b.levels side).find? fun lv => lv.price_ == price with
  | none => some 0
  | some lv => lv.getTotalQty fuel b.heap

def getBidQtyAt (fuel : Nat) (b : OrderBook) (price : UInt64) : Option UInt32 :=
  qtyAt fuel b .buy price

def getAskQtyAt (fuel : Nat) (b : OrderBook) (price : UInt64) : Option UInt32 :=
  qtyAt fuel b .sell price

def orderCount (b : OrderBook) : Nat := b.orders_.size_

end OrderBook

end UltraHft.MarketData
