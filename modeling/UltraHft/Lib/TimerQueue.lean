import UltraHft.Lib.StableSort
import Mathlib.Data.List.Nodup

/-!
# Timer queues

What a timer service is for: the timers that wait, in the order in which they were
scheduled, and a clock that moves in steps of a grain.  To advance the clock is to
fire what is due: grain by grain, and within a grain in the order of scheduling.
-/

namespace UltraHft.Lib.TimerQueue

structure Timer (κ : Type*) where
  id : ℕ
  due : ℕ
  action : κ
  deriving DecidableEq, Repr

/-- The grain of time that the timer is due in. -/
def Timer.slot {κ : Type*} (grain : ℕ) (x : Timer κ) : ℕ := x.due / grain

structure Queue (κ : Type*) where
  waiting : List (Timer κ)
  clock : ℕ
  nextId : ℕ

inductive Request (κ : Type*) where
  | schedule (delay : ℕ) (action : κ)
  | scheduleAt (due : ℕ) (action : κ)
  | cancel (id : ℕ)
  | advance (time : ℕ)
  | clear
  | count
  | clock

inductive Reply (κ : Type*) where
  | scheduled (id : ℕ)
  | cancelled (found : Bool)
  | fired (count : ℕ) (timers : List (Timer κ))
  | cleared
  | number (number : ℕ)
  deriving DecidableEq, Repr

namespace Queue

variable {κ : Type*} {q : Queue κ} {x : Timer κ} {grain time : ℕ}

def empty (κ : Type*) : Queue κ := ⟨[], 0, 1⟩

def add (q : Queue κ) (due : ℕ) (action : κ) : Reply κ × Queue κ :=
  (.scheduled q.nextId,
    { q with waiting := q.waiting ++ [⟨q.nextId, due, action⟩], nextId := q.nextId + 1 })

def dueBy (q : Queue κ) (time : ℕ) : List (Timer κ) := q.waiting.filter fun x => x.due ≤ time

/-- The clock stops at the end of the grain that `time` is in, and does not go
back. -/
def advance (grain : ℕ) (q : Queue κ) (time : ℕ) : Reply κ × Queue κ :=
  (.fired (q.dueBy time).length (StableSort.sort (Timer.slot grain) (q.dueBy time)),
    { q with
      waiting := q.waiting.filter fun x => time < x.due
      clock := if q.clock ≤ time then (time / grain + 1) * grain else q.clock })

def next (grain : ℕ) (q : Queue κ) : Request κ → Reply κ × Queue κ
  | .schedule delay action => q.add (q.clock + delay) action
  | .scheduleAt due action => q.add due action
  | .cancel id =>
      (.cancelled (q.waiting.any fun x => x.id = id),
        { q with waiting := q.waiting.filter fun x => x.id ≠ id })
  | .advance time => q.advance grain time
  | .clear => (.cleared, { q with waiting := [], clock := 0 })
  | .count => (.number q.waiting.length, q)
  | .clock => (.number q.clock, q)

/-- The ids in use are distinct and have been given out, and the clock stands
between two grains. -/
structure Sound (grain : ℕ) (q : Queue κ) : Prop where
  distinct : (q.waiting.map Timer.id).Nodup
  given : ∀ x ∈ q.waiting, x.id < q.nextId
  aligned : grain ∣ q.clock

theorem sound_empty (grain : ℕ) (κ : Type*) : Sound grain (empty κ) where
  distinct := List.nodup_nil
  given := by simp [empty]
  aligned := Nat.dvd_zero grain

theorem mem_dueBy : x ∈ q.dueBy time ↔ x ∈ q.waiting ∧ x.due ≤ time := by
  rw [dueBy, List.mem_filter, decide_eq_true_eq]

theorem Sound.add (h : Sound grain q) (due : ℕ) (action : κ) :
    Sound grain (q.add due action).2 := by
  have hnew : q.nextId ∉ q.waiting.map Timer.id := by
    intro hmem
    obtain ⟨x, hx, hid⟩ := List.mem_map.mp hmem
    have hlt := h.given x hx
    omega
  constructor
  · change ((q.waiting ++ [_]).map Timer.id).Nodup
    rw [List.map_append, List.map_singleton, ← List.concat_eq_append]
    exact List.Nodup.concat hnew h.distinct
  · change ∀ x ∈ q.waiting ++ [_], x.id < q.nextId + 1
    intro x hx
    rcases List.mem_append.mp hx with hx | hx
    · have hlt := h.given x hx
      omega
    · rw [List.mem_singleton.mp hx]
      exact Nat.lt_succ_self _
  · exact h.aligned

theorem Sound.remove (h : Sound grain q) (p : Timer κ → Bool) {clock : ℕ} (hclock : grain ∣ clock) :
    Sound grain { q with waiting := q.waiting.filter p, clock } where
  distinct := h.distinct.sublist (List.filter_sublist.map Timer.id)
  given := fun x hx => h.given x (List.mem_filter.mp hx).1
  aligned := hclock

theorem Sound.next (h : Sound grain q) (request : Request κ) :
    Sound grain (q.next grain request).2 := by
  cases request with
  | schedule delay action => exact h.add _ action
  | scheduleAt due action => exact h.add due action
  | cancel id => exact h.remove _ h.aligned
  | advance time =>
      apply h.remove
      split_ifs
      · exact Nat.dvd_mul_left grain _
      · exact h.aligned
  | clear => exact ⟨List.nodup_nil, by simp [Queue.next], Nat.dvd_zero grain⟩
  | count => exact h
  | clock => exact h

end Queue

end UltraHft.Lib.TimerQueue
