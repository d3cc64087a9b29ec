import UltraHft.Lib.Linearizability

/-!
# The single-producer single-consumer queue

`ring_buffer.hpp`, as the interleavings of one producer and one consumer.  Each
step is one access to shared memory: a load or a store of an index, or the copy
of an element.  `N` is at most `2 ^ 63`, so `t + 1` does not wrap.
-/

namespace UltraHft.Core

open UltraHft.Lib.Linearizability (Event)

structure SpscQueue (T : Type*) where
  ptr : Nat → T
  head_ : Nat
  tail_ : Nat

/-- Where a call of `push(ele)` stands, with its local variables.  The names
are those of the step to come. -/
inductive PushState (T : Type*) where
  | idle
  | loadTail (ele : T)
  | loadHead (ele : T) (t : Nat)
  | copy (ele : T) (t : Nat)
  | store (ele : T) (t : Nat)
  | done (ele : T) (ok : Bool)

/-- Where a call of `pop(ele)` stands; the result carries the element copied
out, if any. -/
inductive PopState (T : Type*) where
  | idle
  | loadTail
  | loadHead (t : Nat)
  | copy (h : Nat)
  | store (h : Nat) (ele : T)
  | done (result : Option T)

namespace SpscQueue

variable {T : Type*}

structure System (T : Type*) where
  queue : SpscQueue T
  producer : PushState T
  consumer : PopState T

def new (ptr : Nat → T) : System T where
  queue := { ptr, head_ := 0, tail_ := 0 }
  producer := .idle
  consumer := .idle

def pushStep (N : Nat) (s : System T) : Option (System T) :=
  match s.producer with
  | .loadTail ele => some { s with producer := .loadHead ele s.queue.tail_ }
  | .loadHead ele t =>
      if (t + 1) % N = s.queue.head_ then some { s with producer := .done ele false }
      else some { s with producer := .copy ele t }
  | .copy ele t =>
      some { s with
        queue := { s.queue with ptr := Function.update s.queue.ptr t ele }
        producer := .store ele t }
  | .store ele t =>
      some { s with
        queue := { s.queue with tail_ := (t + 1) % N }
        producer := .done ele true }
  | .idle => none
  | .done _ _ => none

def popStep (N : Nat) (s : System T) : Option (System T) :=
  match s.consumer with
  | .loadTail => some { s with consumer := .loadHead s.queue.tail_ }
  | .loadHead t =>
      if t = s.queue.head_ then some { s with consumer := .done none }
      else some { s with consumer := .copy s.queue.head_ }
  | .copy h => some { s with consumer := .store h (s.queue.ptr h) }
  | .store h ele =>
      some { s with
        queue := { s.queue with head_ := (h + 1) % N }
        consumer := .done (some ele) }
  | .idle => none
  | .done _ => none

inductive Client where
  | producer
  | consumer
  deriving DecidableEq

inductive Op (T : Type*) where
  | push (ele : T)
  | pop

inductive Result (T : Type*) where
  | pushed (ok : Bool)
  | popped (ele : Option T)

/-- A client enters a call, takes its next step or returns from it. -/
inductive Action (T : Type*) where
  | push (ele : T)
  | pushStep
  | pushReturn
  | pop
  | popStep
  | popReturn

/-- One step of the system, with the call or return that a client sees. -/
def step (N : Nat) (s : System T) :
    Action T → Option (System T × Option (Event Client (Op T) (Result T)))
  | .push ele =>
      match s.producer with
      | .idle => some ({ s with producer := .loadTail ele }, some (.call .producer (.push ele)))
      | _ => none
  | .pushStep => (pushStep N s).map fun s' => (s', none)
  | .pushReturn =>
      match s.producer with
      | .done _ ok => some ({ s with producer := .idle }, some (.ret .producer (.pushed ok)))
      | _ => none
  | .pop =>
      match s.consumer with
      | .idle => some ({ s with consumer := .loadTail }, some (.call .consumer .pop))
      | _ => none
  | .popStep => (popStep N s).map fun s' => (s', none)
  | .popReturn =>
      match s.consumer with
      | .done result =>
          some ({ s with consumer := .idle }, some (.ret .consumer (.popped result)))
      | _ => none

end SpscQueue

end UltraHft.Core
