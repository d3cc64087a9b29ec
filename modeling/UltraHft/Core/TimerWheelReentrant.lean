import UltraHft.Core.TimerWheel
import UltraHft.Lib.TimerService

/-!
# The timer wheel under callbacks that use it

`tick` cut into its steps, so that a callback can call `schedule`, `schedule_at`,
`schedule_recurring` and `cancel` while `tick` stands at its node; a `tick` or `clear`
within a callback is left out.  `none` is a step that cannot be next, or the end of all
definedness: a callback that cancels the timer it runs for destroys the node that `tick`
goes on to erase.
-/

namespace UltraHft.Core

open UltraHft.Lib
open TimerQueue (Timer)
open TimerService (Event)

def Callback.given {C : Type*} : Callback C → C
  | .user callback => callback
  | .recurring _ _ callback => callback

def TimerNode.timer {C : Type*} (node : TimerNode C) : Timer C :=
  ⟨node.id, node.expireTime, node.callback.given⟩

namespace TimerWheel

variable {C : Type*}

/-- Where control is.  `it` is the place of the iterator of `tick` in the bucket of
`current_tick_`. -/
inductive Control where
  | outside
  | inTick (now it : Nat)
  | inCallback (now it : Nat)
  deriving DecidableEq, Repr

structure Reentrant (C : Type*) where
  wheel : TimerWheel C
  control : Control
  expiredCount : Nat

/-- What callbacks call, and the user between two ticks. -/
inductive WheelRequest (C : Type*) where
  | schedule (durationNs : Nat) (callback : C)
  | scheduleAt (absoluteTimeNs : Nat) (callback : C)
  | scheduleRecurring (intervalNs : Nat) (callback : C)
  | cancel (timerId : Nat)

/-- `goOn` is one turn of the loops of `tick`, up to a callback; `leave` is the return
of the callback. -/
inductive WheelStep (C : Type*) where
  | request (request : WheelRequest C)
  | tick (currentTimeNs : Nat)
  | goOn
  | leave

/-- The node that `cancel` erases: its bucket, and its place there. -/
def place (w : TimerWheel C) (timerId : Nat) : Option (Nat × Nat) :=
  ((List.range w.wheel_size_).find? fun b => (w.wheels_ b).any fun n => n.id == timerId).map
    fun b => (b, (w.wheels_ b).findIdx fun n => n.id == timerId)

/-- A `std::list` iterator stays at its node when another one is erased. -/
def Control.afterErase (bucket : Nat) (erased : Option (Nat × Nat)) : Control → Option Control
  | .inCallback now it =>
      match erased with
      | none => some (.inCallback now it)
      | some (b, i) =>
          if b ≠ bucket ∨ it < i then some (.inCallback now it)
          else if i = it then none
          else some (.inCallback now (it - 1))
  | control => some control

namespace Reentrant

/-- The bucket of `current_tick_`. -/
def bucket (s : Reentrant C) : Nat := s.wheel.bucketOf s.wheel.current_tick_

/-- `wheels_[bucket].emplace_back(...)`, seen from outside. -/
def afterSchedule (s : Reentrant C) (expireTime : Nat) (callback : C)
    (r : Nat × TimerWheel C) : Event C × Reentrant C :=
  (.scheduled ⟨r.1, expireTime, callback⟩, { s with wheel := r.2 })

def request (s : Reentrant C) : WheelRequest C → Option (Event C × Reentrant C)
  | .schedule durationNs callback =>
      some (s.afterSchedule (wrap (s.wheel.current_tick_ + durationNs)) callback
        (s.wheel.schedule durationNs callback))
  | .scheduleAt absoluteTimeNs callback =>
      some (s.afterSchedule absoluteTimeNs callback (s.wheel.scheduleAt absoluteTimeNs callback))
  | .scheduleRecurring intervalNs callback =>
      some (s.afterSchedule (wrap (s.wheel.current_tick_ + intervalNs)) callback
        (s.wheel.scheduleRecurring intervalNs callback))
  | .cancel timerId =>
      let (found, wheel) := s.wheel.cancel timerId
      (s.control.afterErase s.bucket (s.wheel.place timerId)).map fun control =>
        (.cancelled timerId found, { s with wheel, control })

/-- What the wrapper of a recurring timer does after the user's callback. -/
def rearm (s : Reentrant C) : Callback C → List (Event C) × Reentrant C
  | .user _ => ([], s)
  | .recurring _ intervalNs callback =>
      let r := s.afterSchedule (wrap (s.wheel.current_tick_ + intervalNs)) callback
        (s.wheel.scheduleRecurring intervalNs callback)
      ([r.1], r.2)

def atTick (s : Reentrant C) (time : Nat) : Reentrant C :=
  { s with wheel := { s.wheel with current_tick_ := time } }

def nextBucket (s : Reentrant C) : Reentrant C :=
  s.atTick (wrap (s.wheel.current_tick_ + tickIntervalNs))

def enter (s : Reentrant C) (now : Nat) : List (Event C) × Reentrant C :=
  if s.wheel.current_tick_ ≤ now then ([], { s with control := .inTick now 0 })
  else ([.ended s.expiredCount], { s with control := .outside })

/-- What happens is seen as events; a turn of the loops may show nothing. -/
def step (s : Reentrant C) : WheelStep C → Option (List (Event C) × Reentrant C)
  | .request r =>
      match s.control with
      | .inTick .. => none
      | _ => (s.request r).map fun (event, s) => ([event], s)
  | .tick now =>
      match s.control with
      | .outside =>
          let (events, s) := { s with expiredCount := 0 }.enter now
          some (.begins now :: events, s)
      | _ => none
  | .goOn =>
      match s.control with
      | .inTick now it =>
          match (s.wheel.wheels_ s.bucket)[it]? with
          | none => some (s.nextBucket.enter now)
          | some node =>
              if node.expireTime ≤ now then
                some ([.called node.timer], { s with control := .inCallback now it })
              else some ([], { s with control := .inTick now (it + 1) })
      | _ => none
  | .leave =>
      match s.control with
      | .inCallback now it =>
          (s.wheel.wheels_ s.bucket)[it]?.map fun node =>
            let (events, t) := s.rearm node.callback
            (events ++ [.returned],
              { wheel := { t.wheel with
                  wheels_ := Function.update t.wheel.wheels_ s.bucket
                    ((t.wheel.wheels_ s.bucket).eraseIdx it) }
                control := .inTick now it
                expiredCount := s.expiredCount + 1 })
      | _ => none

def new (C : Type*) (size : Nat) (hsize : 0 < size) : Reentrant C where
  wheel := TimerWheel.new C size hsize
  control := .outside
  expiredCount := 0

def run (s : Reentrant C) : List (WheelStep C) → Option (List (Event C) × Reentrant C)
  | [] => some ([], s)
  | step :: steps => do
      let (events, s) ← s.step step
      let (more, s) ← s.run steps
      some (events ++ more, s)

end Reentrant

end TimerWheel

end UltraHft.Core
