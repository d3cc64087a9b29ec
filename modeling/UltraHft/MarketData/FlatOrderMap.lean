import Mathlib.Algebra.Ring.Nat
import Mathlib.Logic.Function.Basic
import UltraHft.Lib.Loop
import UltraHft.MarketData.Order

/-!
# The open-addressing order index

`flat_order_map.hpp`: a power-of-two array of slots, linear probing and
backward-shift deletion.  `std::size_t` values are naturals reduced modulo
`2 ^ 64` wherever the source can wrap.  `none` is a call that never returns.
-/

namespace UltraHft.MarketData

open UltraHft.Lib

/-- Reduction of a `std::size_t` result. -/
def sizeT (n : Nat) : Nat := n % 2 ^ 64

/-- `--n` on a `std::size_t`. -/
def sizePred (n : Nat) : Nat := sizeT (n + 2 ^ 64 - 1)

/-- `FlatOrderMap::Slot`; the padding carries no data. -/
structure Slot where
  key : UInt64 := 0
  order : Order := {}
  occupied : Bool := false
  deriving Repr, DecidableEq, Inhabited

/-- The slot array is a function of the index; only indices below `capacity_`
exist in memory. -/
structure FlatOrderMap where
  slots : Nat → Slot
  capacity_ : Nat
  mask_ : Nat
  size_ : Nat

namespace FlatOrderMap

def kDefaultCapacity : UInt64 := 262144

def nextPow2 (n : UInt64) : UInt64 :=
  if n = 0 then 1
  else
    let n := n - 1
    let n := n ||| (n >>> 1)
    let n := n ||| (n >>> 2)
    let n := n ||| (n >>> 4)
    let n := n ||| (n >>> 8)
    let n := n ||| (n >>> 16)
    let n := n ||| (n >>> 32)
    n + 1

/-- The constructor: every slot is zeroed.  A request above `2 ^ 63` wraps to
an array of no slots. -/
def new (capacity : UInt64) : FlatOrderMap :=
  let capacity_ := (nextPow2 capacity).toNat
  { slots := fun _ => {}
    capacity_ := capacity_
    mask_ := sizePred capacity_
    size_ := 0 }

/-- The multiply-shift mixer of `hash`, before the mask. -/
def mix (key : UInt64) : UInt64 :=
  let key := key ^^^ (key >>> 33)
  let key := key * 0xff51afd7ed558ccd
  let key := key ^^^ (key >>> 33)
  let key := key * 0xc4ceb9fe1a85ec53
  key ^^^ (key >>> 33)

def hash (m : FlatOrderMap) (key : UInt64) : Nat :=
  (mix key).toNat &&& m.mask_

/-- `(idx + 1) & mask_` -/
def next (m : FlatOrderMap) (idx : Nat) : Nat :=
  sizeT (idx + 1) &&& m.mask_

/-- `(to - from) & mask_` -/
def distance (m : FlatOrderMap) (start stop : Nat) : Nat :=
  sizeT (stop + 2 ^ 64 - start) &&& m.mask_

/-- The exits of the probe loops: an empty slot, or the key.  An index outside
the array has no contents, so a table without slots offers no exit. -/
def probeStops (m : FlatOrderMap) (key : UInt64) (idx : Nat) : Bool :=
  decide (idx < m.capacity_) &&
    (!(m.slots idx).occupied || (m.slots idx).key == key)

/-- The probe loop that `insert`, `find` and `erase` share: the index at which
it stops. -/
def probe (m : FlatOrderMap) (key : UInt64) : Option Nat :=
  Loop.run (Loop.scan m.next (m.probeStops key)) m.capacity_ (m.hash key)

def setSlot (m : FlatOrderMap) (idx : Nat) (s : Slot) : FlatOrderMap :=
  { m with slots := Function.update m.slots idx s }

/-- Insert or replace; the result is the pointer to the stored order. -/
def insert (m : FlatOrderMap) (key : UInt64) (order : Order) :
    Option (Nat × FlatOrderMap) := do
  let idx ← m.probe key
  let s := m.slots idx
  if !s.occupied then
    some (idx, { m.setSlot idx { key, order, occupied := true } with
      size_ := sizeT (m.size_ + 1) })
  else
    some (idx, m.setSlot idx { s with order })

/-- The pointer to the stored order, null when the key is absent. -/
def find (m : FlatOrderMap) (key : UInt64) : Option Ptr := do
  let idx ← m.probe key
  if !(m.slots idx).occupied then some none else some (some idx)

/-- The local variables of the backward shift. -/
structure Shift where
  slots : Nat → Slot
  hole : Nat
  cur : Nat

def shiftBody (m : FlatOrderMap) (t : Shift) : Option (Shift ⊕ (Nat → Slot)) :=
  let s := t.slots t.cur
  if !s.occupied then some (.inr t.slots)
  else
    let natural := m.hash s.key
    if m.distance natural t.cur > m.distance t.hole t.cur then
      some (.inl
        { slots := Function.update (Function.update t.slots t.hole s) t.cur
            { s with occupied := false }
          hole := t.cur
          cur := m.next t.cur })
    else
      some (.inl { t with cur := m.next t.cur })

/-- Every iteration but the last shortens the displacements of the entries or
brings the scan closer to the hole. -/
def shiftFuel (m : FlatOrderMap) : Nat := m.capacity_ ^ 3 + 1

/-- Pull the following entries back into the slot vacated at `idx`. -/
def backwardShift (m : FlatOrderMap) (idx : Nat) : Option (Nat → Slot) :=
  let slots := Function.update m.slots idx { m.slots idx with occupied := false }
  Loop.run m.shiftBody m.shiftFuel { slots, hole := idx, cur := m.next idx }

/-- Erase by key; the result says whether the key was found. -/
def erase (m : FlatOrderMap) (key : UInt64) : Option (Bool × FlatOrderMap) := do
  let idx ← m.probe key
  if !(m.slots idx).occupied then
    some (false, m)
  else
    let slots ← m.backwardShift idx
    some (true, { m with slots, size_ := sizePred m.size_ })

def clear (m : FlatOrderMap) : FlatOrderMap :=
  { m with slots := fun _ => {}, size_ := 0 }

/-- The orders of the slots, as the memory that `Order*` refers to. -/
def heap (m : FlatOrderMap) : Heap := fun i => (m.slots i).order

/-- Write the stored orders back after their links or quantities changed. -/
def withHeap (m : FlatOrderMap) (h : Heap) : FlatOrderMap :=
  { m with slots := fun i => { m.slots i with order := h i } }

end FlatOrderMap

end UltraHft.MarketData
