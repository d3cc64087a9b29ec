import UltraHft.Lib.Lifetimes
import UltraHft.MarketData.FlatOrderMap

/-!
# Order indexes that are moved

`flat_order_map.hpp`: the constructors, the destructor and the two moves.  Here the
slots are an array of the free store, and an `Order*` is the array with an index
into it.  `none` is a program without a meaning, such as one that follows the null
pointer, or a call that never returns.
-/

namespace UltraHft.MarketData

open UltraHft.Lib

/-- What `new Slot[length]` gives. -/
structure SlotArray where
  length : Nat
  slots : Nat → Slot

structure MapMembers where
  slots_ : Option Nat
  capacity_ : Nat
  mask_ : Nat
  size_ : Nat

/-- The public calls of a `FlatOrderMap` but for its moves. -/
inductive MapOperation where
  | insert (key : UInt64) (order : Order)
  | find (key : UInt64)
  | erase (key : UInt64)
  | clear
  | size
  | capacity
  | empty

inductive MapAnswer where
  | nothing
  | order (pointer : Option (Nat × Nat))
  | found (found : Bool)
  | number (number : Nat)
  deriving DecidableEq, Repr

namespace MapMembers

def movedFrom (o : MapMembers) : MapMembers := { o with slots_ := none, size_ := 0 }

/-- The index in the array that `slots_` points to; the calls reach no slot behind
`capacity_`. -/
def view (x : MapMembers) (array : SlotArray) : Option FlatOrderMap :=
  if x.capacity_ ≤ array.length then
    some ⟨array.slots, x.capacity_, x.mask_, x.size_⟩
  else none

def read (x : MapMembers) : MapOperation → Option MapAnswer
  | .size => some (.number x.size_)
  | .capacity => some (.number x.capacity_)
  | .empty => some (.found (x.size_ == 0))
  | _ => none

end MapMembers

/-- A call that reaches the slots, in the array at `address`. -/
def FlatOrderMap.operate (m : FlatOrderMap) (address : Nat) :
    MapOperation → Option (MapAnswer × FlatOrderMap)
  | .insert key order => (m.insert key order).map fun r => (.order (some (address, r.1)), r.2)
  | .find key => (m.find key).map fun p => (.order (p.map fun i => (address, i)), m)
  | .erase key => (m.erase key).map fun r => (.found r.1, r.2)
  | .clear => some (.nothing, m.clear)
  | _ => none

/-- A statement of a program with variables of type `FlatOrderMap`; `address` is
what `new` returns. -/
inductive MapStatement (V : Type) where
  | construct (v : V) (capacity : UInt64) (address : Nat)
  | moveConstruct (v o : V)
  | moveAssign (v o : V)
  | call (v : V) (operation : MapOperation)
  | destroy (v : V)

/-- The variables that are alive and the arrays of the free store, with a log of
what has been allocated, used and deleted. -/
structure MapStore (V : Type) where
  maps : V → Option MapMembers
  arrays : Nat → Option SlotArray
  log : List (Lifetimes.Event Nat SlotArray)

namespace MapStore

variable {V : Type} [DecidableEq V]

def new (V : Type) : MapStore V := ⟨fun _ => none, fun _ => none, []⟩

def setMap (s : MapStore V) (v : V) (x : Option MapMembers) : MapStore V :=
  { s with maps := Function.update s.maps v x }

def emit (s : MapStore V) (event : Lifetimes.Event Nat SlotArray) : Option (MapStore V) :=
  (Lifetimes.next s.arrays event).map fun arrays =>
    { s with arrays, log := s.log ++ [event] }

/-- `delete[]`, which does nothing with the null pointer. -/
def deleteArray (s : MapStore V) : Option Nat → Option (MapStore V)
  | none => some s
  | some p => s.emit (.dies p)

/-- A call that follows `slots_`. -/
def onSlots (s : MapStore V) (v : V) (x : MapMembers) (operation : MapOperation) :
    Option (MapAnswer × MapStore V) := do
  let p ← x.slots_
  let array ← s.arrays p
  let m ← x.view array
  let (answer, m) ← m.operate p operation
  let s ← s.emit (.changes p { array with slots := m.slots })
  some (answer, s.setMap v (some { x with size_ := m.size_ }))

def step (s : MapStore V) : MapStatement V → Option (MapAnswer × MapStore V)
  | .construct v capacity address =>
      if (s.maps v).isSome then none
      else do
        let m := FlatOrderMap.new capacity
        let s ← s.emit (.born address ⟨m.capacity_, m.slots⟩)
        some (.nothing, s.setMap v (some ⟨some address, m.capacity_, m.mask_, m.size_⟩))
  | .moveConstruct v o =>
      if (s.maps v).isSome then none
      else do
        let x ← s.maps o
        let s := s.setMap v (some x)
        let s := s.setMap o (some x.movedFrom)
        some (.nothing, s)
  | .moveAssign v o => do
      let x ← s.maps v
      let y ← s.maps o
      if v = o then some (.nothing, s)
      else
        let s ← s.deleteArray x.slots_
        let s := s.setMap v (some y)
        let s := s.setMap o (some ⟨none, 0, 0, 0⟩)
        some (.nothing, s)
  | .call v operation => do
      let x ← s.maps v
      (x.read operation).elim (s.onSlots v x operation) fun answer => some (answer, s)
  | .destroy v => do
      let x ← s.maps v
      let s ← s.deleteArray x.slots_
      some (.nothing, s.setMap v none)

end MapStore

end UltraHft.MarketData
