import Mathlib.Algebra.Ring.Nat
import Mathlib.Logic.Function.Basic

/-!
# The memory pools

`memory_pool.hpp` and `memory_pool_1.hpp`: `Capacity` slots of raw storage, a
stack of the free ones, a bit for each occupied one and a count of these.  The
two classes have the same members and differ in the order of their statements.
Pointers are addresses, the null pointer is 0.
-/

namespace UltraHft.Core

/-- Where `new std::byte[sizeof(T) * Capacity]` has put the slots: not at the
null pointer, and with the end of the storage still an address. -/
structure Storage where
  base : Nat
  stride : Nat
  capacity : Nat
  base_pos : 0 < base
  stride_pos : 0 < stride
  capacity_pos : 0 < capacity
  end_lt : base + stride * capacity < 2 ^ 64

namespace Storage

def ptrAt (l : Storage) (slot : Nat) : Nat := l.base + slot * l.stride

def indexOf (l : Storage) (p : Nat) : Option Nat :=
  if p = 0 then none
  else if p < l.base ∨ l.base + l.stride * l.capacity ≤ p then none
  else
    let offset := p - l.base
    if offset % l.stride ≠ 0 then none
    else
      let slot := offset / l.stride
      if l.capacity ≤ slot then none else some slot

end Storage

/-- The members of `MemoryPool` and of `MemoryPool1`.  The storage holds the
objects that have been constructed and not destroyed, by their address; the
counters never leave `0 .. Capacity` and are naturals. -/
structure Pool (T : Type*) where
  layout : Storage
  storage_ : Nat → Option T
  free_list_ : Nat → Nat
  occupied_ : Nat → Bool
  free_top_ : Nat
  live_count_ : Nat

namespace Pool

variable {T : Type*}

/-- One round of the constructor's loop. -/
def initSlot (p : Pool T) (i : Nat) : Pool T :=
  { p with
    free_list_ := Function.update p.free_list_ i (p.layout.capacity - 1 - i)
    occupied_ := Function.update p.occupied_ i false }

/-- The members before the constructor's loop; `occupied_(Capacity)` starts with
the bits of the number `Capacity`. -/
def uninitialized (T : Type*) (l : Storage) : Pool T where
  layout := l
  storage_ := fun _ => none
  free_list_ := fun _ => 0
  occupied_ := fun i => l.capacity.testBit i
  free_top_ := l.capacity
  live_count_ := 0

def new (T : Type*) (l : Storage) : Pool T :=
  (List.range l.capacity).foldl initSlot (uninitialized T l)

/-- `std::construct_at`, when the constructor returns. -/
def constructAt (p : Pool T) (ptr : Nat) (object : T) : Pool T :=
  { p with storage_ := Function.update p.storage_ ptr (some object) }

/-- `std::destroy_at` -/
def destroyAt (p : Pool T) (ptr : Nat) : Pool T :=
  { p with storage_ := Function.update p.storage_ ptr none }

/-- One round of the destructor's loop; next to the members, the pointers that
`std::destroy_at` has been called with. -/
def destroySlot (s : Pool T × List Nat) (i : Nat) : Pool T × List Nat :=
  let p := s.1
  if p.occupied_ i = true then
    let ptr := p.layout.ptrAt i
    let p := p.destroyAt ptr
    ({ p with occupied_ := Function.update p.occupied_ i false }, s.2 ++ [ptr])
  else (p, s.2)

end Pool

variable {T E : Type*}

namespace MemoryPool

/-- The constructor is what it comes to: an object, or an exception, which
leaves `allocate` with the slot already off the stack. -/
def allocate (p : Pool T) (construct : Except E T) : Except E (Option Nat) × Pool T :=
  if p.free_top_ = 0 then (.ok none, p)
  else
    let p := { p with free_top_ := p.free_top_ - 1 }
    let slot := p.free_list_ p.free_top_
    match construct with
    | .error e => (.error e, p)
    | .ok object =>
        let ptr := p.layout.ptrAt slot
        let p := p.constructAt ptr object
        let p := { p with occupied_ := Function.update p.occupied_ slot true }
        let p := { p with live_count_ := p.live_count_ + 1 }
        (.ok (some ptr), p)

def deallocate (p : Pool T) (ptr : Nat) : Bool × Pool T :=
  match p.layout.indexOf ptr with
  | none => (false, p)
  | some slot =>
      if p.occupied_ slot = false then (false, p)
      else
        let p := p.destroyAt (p.layout.ptrAt slot)
        let p := { p with occupied_ := Function.update p.occupied_ slot false }
        let p := { p with
          free_list_ := Function.update p.free_list_ p.free_top_ slot
          free_top_ := p.free_top_ + 1 }
        let p := { p with live_count_ := p.live_count_ - 1 }
        (true, p)

def size (p : Pool T) : Nat := p.live_count_

def available (p : Pool T) : Nat := p.free_top_

def owns (p : Pool T) (ptr : Nat) : Bool := (p.layout.indexOf ptr).isSome

/-- `~MemoryPool` -/
def destroy (p : Pool T) : Option (Pool T × List Nat) :=
  some ((List.range p.layout.capacity).foldl Pool.destroySlot (p, []))

end MemoryPool

namespace MemoryPool1

/-- Here the slot leaves the stack after its object is constructed. -/
def allocate (p : Pool T) (construct : Except E T) : Except E (Option Nat) × Pool T :=
  if p.free_top_ = 0 then (.ok none, p)
  else
    let slot := p.free_list_ (p.free_top_ - 1)
    let ptr := p.layout.ptrAt slot
    match construct with
    | .error e => (.error e, p)
    | .ok object =>
        let p := p.constructAt ptr object
        let p := { p with occupied_ := Function.update p.occupied_ slot true }
        let p := { p with live_count_ := p.live_count_ + 1 }
        let p := { p with free_top_ := p.free_top_ - 1 }
        (.ok (some ptr), p)

/-- Here the slot is back on the stack before its object is destroyed. -/
def deallocate (p : Pool T) (ptr : Nat) : Bool × Pool T :=
  match p.layout.indexOf ptr with
  | none => (false, p)
  | some slot =>
      if p.occupied_ slot = false then (false, p)
      else
        let p := { p with
          free_list_ := Function.update p.free_list_ p.free_top_ slot
          free_top_ := p.free_top_ + 1 }
        let p := { p with live_count_ := p.live_count_ - 1 }
        let p := p.destroyAt ptr
        let p := { p with occupied_ := Function.update p.occupied_ slot false }
        (true, p)

/-- `~MemoryPool1` counts in an `int`, which overflows before it reaches a larger
`Capacity`. -/
def destroy (p : Pool T) : Option (Pool T × List Nat) :=
  if p.layout.capacity < 2 ^ 31 then
    some ((List.range p.layout.capacity).foldl Pool.destroySlot (p, []))
  else none

end MemoryPool1

inductive PoolClass where
  | memoryPool
  | memoryPool1
  deriving DecidableEq, Repr

namespace PoolClass

def allocate : PoolClass → Pool T → Except E T → Except E (Option Nat) × Pool T
  | .memoryPool => MemoryPool.allocate
  | .memoryPool1 => MemoryPool1.allocate

def deallocate : PoolClass → Pool T → Nat → Bool × Pool T
  | .memoryPool => MemoryPool.deallocate
  | .memoryPool1 => MemoryPool1.deallocate

def destroy : PoolClass → Pool T → Option (Pool T × List Nat)
  | .memoryPool => MemoryPool.destroy
  | .memoryPool1 => MemoryPool1.destroy

end PoolClass

inductive PoolCall (E T : Type*) where
  | allocate (construct : Except E T)
  | deallocate (ptr : Nat)

/-- A pool in use: next to its members, the pointers it has handed out and not
taken back. -/
structure PoolRun (T : Type*) where
  pool : Pool T
  live : List Nat

namespace PoolRun

def new (T : Type*) (l : Storage) : PoolRun T := ⟨.new T l, []⟩

/-- One call; the live pointers are known from what the calls return. -/
def step (cls : PoolClass) (r : PoolRun T) : PoolCall E T → PoolRun T
  | .allocate construct =>
      match cls.allocate r.pool construct with
      | (.ok (some ptr), pool) => ⟨pool, r.live ++ [ptr]⟩
      | (_, pool) => ⟨pool, r.live⟩
  | .deallocate ptr =>
      match cls.deallocate r.pool ptr with
      | (true, pool) => ⟨pool, r.live.erase ptr⟩
      | (false, pool) => ⟨pool, r.live⟩

def run (cls : PoolClass) (l : Storage) (calls : List (PoolCall E T)) : PoolRun T :=
  calls.foldl (step cls) (new T l)

end PoolRun

end UltraHft.Core
