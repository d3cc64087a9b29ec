import UltraHft.Core.SpscQueue
import UltraHft.Lib.ReleaseAcquire

/-!
# The queue with its memory orders

`ring_buffer.hpp` again, now with the orders that its loads and stores ask for.
Each step still is one access, but a load of an index may find an older value, at
a time that comes with the step, and an element is copied without any guard.
-/

namespace UltraHft.Core.SpscQueue

open UltraHft.Lib.ReleaseAcquire
open UltraHft.Lib.Linearizability (Event)

variable {T : Type}

inductive Index where
  | head
  | tail
  deriving DecidableEq

/-- The queue and its two clients, each with its view of the memory. -/
structure Ordered (T : Type) where
  memory : Memory Index Nat Client Nat T
  views : Client → View Index Client
  producer : PushState T
  consumer : PopState T

namespace Ordered

def new (ptr : Nat → T) : Ordered T where
  memory := .initial (fun _ => 0) ptr .producer
  views := fun _ _ => 0
  producer := .idle
  consumer := .idle

def look (s : Ordered T) (i : Client) (view : View Index Client) : Ordered T :=
  { s with views := Function.update s.views i view }

def pushStep (N : Nat) (s : Ordered T) (time : Nat) : Option (Ordered T) :=
  match s.producer with
  | .loadTail ele => do
      let (t, view) ← s.memory.load .relaxed .tail time (s.views .producer)
      some { s.look .producer view with producer := .loadHead ele t }
  | .loadHead ele t => do
      let (h, view) ← s.memory.load .acquire .head time (s.views .producer)
      if (t + 1) % N = h then some { s.look .producer view with producer := .done ele false }
      else some { s.look .producer view with producer := .copy ele t }
  | .copy ele t =>
      let (memory, view) := s.memory.writeData .producer t ele (s.views .producer)
      some { s.look .producer view with memory := memory, producer := .store ele t }
  | .store ele t => do
      let (memory, view) ← s.memory.store .release .tail time ((t + 1) % N) (s.views .producer)
      some { s.look .producer view with memory := memory, producer := .done ele true }
  | .idle => none
  | .done _ _ => none

def popStep (N : Nat) (s : Ordered T) (time : Nat) : Option (Ordered T) :=
  match s.consumer with
  | .loadTail => do
      let (t, view) ← s.memory.load .acquire .tail time (s.views .consumer)
      some { s.look .consumer view with consumer := .loadHead t }
  | .loadHead t => do
      let (h, view) ← s.memory.load .relaxed .head time (s.views .consumer)
      if t = h then some { s.look .consumer view with consumer := .done none }
      else some { s.look .consumer view with consumer := .copy h }
  | .copy h =>
      let (ele, memory, view) := s.memory.readData .consumer h (s.views .consumer)
      some { s.look .consumer view with memory := memory, consumer := .store h ele }
  | .store h ele => do
      let (memory, view) ← s.memory.store .release .head time ((h + 1) % N) (s.views .consumer)
      some { s.look .consumer view with memory := memory, consumer := .done (some ele) }
  | .idle => none
  | .done _ => none

def step (N : Nat) (s : Ordered T) :
    Action T × Nat → Option (Ordered T × Option (Event Client (Op T) (Result T)))
  | (.push ele, _) =>
      match s.producer with
      | .idle => some ({ s with producer := .loadTail ele }, some (.call .producer (.push ele)))
      | _ => none
  | (.pushStep, time) => (pushStep N s time).map fun s' => (s', none)
  | (.pushReturn, _) =>
      match s.producer with
      | .done _ ok => some ({ s with producer := .idle }, some (.ret .producer (.pushed ok)))
      | _ => none
  | (.pop, _) =>
      match s.consumer with
      | .idle => some ({ s with consumer := .loadTail }, some (.call .consumer .pop))
      | _ => none
  | (.popStep, time) => (popStep N s time).map fun s' => (s', none)
  | (.popReturn, _) =>
      match s.consumer with
      | .done result =>
          some ({ s with consumer := .idle }, some (.ret .consumer (.popped result)))
      | _ => none

/-- The next copy of an element races with one that was made. -/
def Races (s : Ordered T) : Prop :=
  (∃ ele slot, s.producer = .copy ele slot ∧
    (s.memory.UnseenWrite slot (s.views .producer) ∨
      s.memory.UnseenRead slot (s.views .producer))) ∨
  ∃ slot, s.consumer = .copy slot ∧ s.memory.UnseenWrite slot (s.views .consumer)

end Ordered

end UltraHft.Core.SpscQueue
