import Mathlib.Algebra.Ring.Nat
import Mathlib.Logic.Function.Basic
import UltraHft.Lib.Loop

/-!
# The timer wheel

`timer_wheel.hpp`: buckets of one millisecond, revisited once per rotation.
Timestamps are naturals reduced modulo `2 ^ 64`.  User callbacks terminate and
here do not touch the wheel, so all that is kept of one is which it is; the wrapper
that `schedule_recurring` puts around its callback does touch the wheel.  User
callbacks that do are in `TimerWheelReentrant`.
-/

namespace UltraHft.Core

open UltraHft.Lib

/-- Reduction of a `std::uint64_t` result. -/
def wrap (n : Nat) : Nat := n % 2 ^ 64

/-- A stored callback: the user's own, or the wrapper of a recurring timer. -/
inductive Callback (C : Type*) where
  | user (callback : C)
  | recurring (id intervalNs : Nat) (callback : C)
  deriving DecidableEq, Repr

structure TimerNode (C : Type*) where
  id : Nat
  expireTime : Nat
  callback : Callback C
  deriving DecidableEq, Repr

/-- The members of `TimerWheel`.  A wheel without buckets cannot be used: every
operation on it divides by zero. -/
structure TimerWheel (C : Type*) where
  wheels_ : Nat → List (TimerNode C)
  wheel_size_ : Nat
  current_tick_ : Nat
  next_timer_id_ : Nat
  size_pos : 0 < wheel_size_

namespace TimerWheel

variable {C : Type*}

/-- `WHEEL_SIZE` -/
def defaultWheelSize : Nat := 256

/-- `TICK_INTERVAL_NS`: 1 ms. -/
def tickIntervalNs : Nat := 1000000

def new (C : Type*) (wheelSize : Nat) (h : 0 < wheelSize) : TimerWheel C where
  wheels_ := fun _ => []
  wheel_size_ := wheelSize
  current_tick_ := 0
  next_timer_id_ := 1
  size_pos := h

def bucketOf (w : TimerWheel C) (time : Nat) : Nat := time / tickIntervalNs % w.wheel_size_

/-- `wheels_[bucket].emplace_back(id, expire_time, callback)` for the next id. -/
def emplace (w : TimerWheel C) (expireTime : Nat) (callback : Callback C) :
    Nat × TimerWheel C :=
  let id := w.next_timer_id_
  let bucket := w.bucketOf expireTime
  (id, { w with
    wheels_ := Function.update w.wheels_ bucket (w.wheels_ bucket ++ [⟨id, expireTime, callback⟩])
    next_timer_id_ := wrap (id + 1) })

def schedule (w : TimerWheel C) (durationNs : Nat) (callback : C) : Nat × TimerWheel C :=
  w.emplace (wrap (w.current_tick_ + durationNs)) (.user callback)

def scheduleAt (w : TimerWheel C) (absoluteTimeNs : Nat) (callback : C) :
    Nat × TimerWheel C :=
  w.emplace absoluteTimeNs (.user callback)

def scheduleRecurring (w : TimerWheel C) (intervalNs : Nat) (callback : C) :
    Nat × TimerWheel C :=
  w.emplace (wrap (w.current_tick_ + intervalNs))
    (.recurring w.next_timer_id_ intervalNs callback)

/-- The first bucket that holds the id loses its first node of that id. -/
def cancel (w : TimerWheel C) (timerId : Nat) : Bool × TimerWheel C :=
  match (List.range w.wheel_size_).find? fun b => (w.wheels_ b).any fun n => n.id == timerId with
  | none => (false, w)
  | some b =>
      (true, { w with
        wheels_ := Function.update w.wheels_ b ((w.wheels_ b).eraseP fun n => n.id == timerId) })

/-- Run a callback: the user's leaves the wheel alone, the wrapper schedules the
next occurrence after it. -/
def invoke (w : TimerWheel C) : Callback C → TimerWheel C
  | .user _ => w
  | .recurring _ intervalNs callback => (w.scheduleRecurring intervalNs callback).2

/-- The variables of `tick`: the wheel, the count it will return, and the nodes
whose callbacks have run, in order. -/
structure Ticking (C : Type*) where
  wheel : TimerWheel C
  expiredCount : Nat
  fired : List (TimerNode C)

/-- One iteration of the walk over a bucket; `it` is the position in the list,
to which a callback may append. -/
def bucketBody (now bucket : Nat) (s : Ticking C × Nat) :
    Option ((Ticking C × Nat) ⊕ Ticking C) :=
  match (s.1.wheel.wheels_ bucket)[s.2]? with
  | none => some (.inr s.1)
  | some node =>
      if node.expireTime ≤ now then
        let w := s.1.wheel.invoke node.callback
        some (.inl
          ({ wheel := { w with
              wheels_ := Function.update w.wheels_ bucket ((w.wheels_ bucket).eraseIdx s.2) }
             expiredCount := s.1.expiredCount + 1
             fired := s.1.fired ++ [node] }, s.2))
      else some (.inl (s.1, s.2 + 1))

/-- One iteration of the outer loop: the bucket of `current_tick_`. -/
def tickBody (fuel now : Nat) (s : Ticking C) : Option (Ticking C ⊕ Ticking C) :=
  if s.wheel.current_tick_ ≤ now then do
    let bucket := s.wheel.bucketOf s.wheel.current_tick_
    let s ← Loop.run (bucketBody now bucket) fuel (s, 0)
    some (.inl { s with
      wheel := { s.wheel with current_tick_ := wrap (s.wheel.current_tick_ + tickIntervalNs) } })
  else some (.inr s)

/-- `tick`, with at most `fuel` iterations of each loop. -/
def tick (fuel : Nat) (w : TimerWheel C) (currentTimeNs : Nat) : Option (Ticking C) :=
  Loop.run (tickBody fuel currentTimeNs) fuel { wheel := w, expiredCount := 0, fired := [] }

/-- The tick is in this state within its walk over a bucket; it need not ever
come back. -/
def Passes (w : TimerWheel C) (currentTimeNs : Nat) (s : Ticking C) : Prop :=
  ∃ fuel t it, Loop.Reaches (tickBody fuel currentTimeNs) ⟨w, 0, []⟩ t ∧
    t.wheel.current_tick_ ≤ currentTimeNs ∧
    Loop.Reaches (bucketBody currentTimeNs (t.wheel.bucketOf t.wheel.current_tick_)) (t, 0) (s, it)

def pendingCount (w : TimerWheel C) : Nat :=
  ((List.range w.wheel_size_).map fun b => (w.wheels_ b).length).sum

def clear (w : TimerWheel C) : TimerWheel C :=
  { w with wheels_ := fun _ => [], current_tick_ := 0 }

def Pending (w : TimerWheel C) (node : TimerNode C) : Prop :=
  ∃ b < w.wheel_size_, node ∈ w.wheels_ b

end TimerWheel

end UltraHft.Core
