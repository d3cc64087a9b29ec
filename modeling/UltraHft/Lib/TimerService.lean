import Mathlib.Data.Multiset.MapFold
import UltraHft.Lib.Buckets
import UltraHft.Lib.TimerQueue

/-!
# Timer services with busy callbacks

What a timer service promises to callbacks that use it themselves.  While it looks for
what is due it calls one callback at a time; a callback may schedule and cancel, and
what it schedules may be called by the same advance.  Which of the due timers comes next
is left open.  A prompt service ends an advance when nothing that waits is due.
-/

namespace UltraHft.Lib.TimerService

open TimerQueue (Timer)

variable {κ : Type*}

inductive Phase (κ : Type*) where
  | idle
  | seeking (time : ℕ)
  | running (time : ℕ) (timer : Timer κ)

structure Service (κ : Type*) where
  waiting : Multiset (Timer κ)
  phase : Phase κ
  count : ℕ
  nextId : ℕ

inductive Event (κ : Type*) where
  | scheduled (timer : Timer κ)
  | cancelled (id : ℕ) (found : Bool)
  | begins (time : ℕ)
  | called (timer : Timer κ)
  | returned
  | ended (count : ℕ)
  deriving DecidableEq, Repr

namespace Service

def new (κ : Type*) : Service κ := ⟨0, .idle, 0, 1⟩

def Asks (s : Service κ) : Prop := ∀ time, s.phase ≠ .seeking time

/-- A timer that is called waits no more, and cannot be cancelled any more. -/
inductive Step (prompt : Prop) : Service κ → Event κ → Service κ → Prop
  | schedule (s : Service κ) (due : ℕ) (action : κ) (hasks : s.Asks) :
      Step prompt s (.scheduled ⟨s.nextId, due, action⟩)
        { s with waiting := ⟨s.nextId, due, action⟩ ::ₘ s.waiting, nextId := s.nextId + 1 }
  | cancel (s : Service κ) (timer : Timer κ) (rest : Multiset (Timer κ)) (hasks : s.Asks)
      (hwaits : s.waiting = timer ::ₘ rest) :
      Step prompt s (.cancelled timer.id true) { s with waiting := rest }
  | miss (s : Service κ) (id : ℕ) (hasks : s.Asks) (hnone : ∀ timer ∈ s.waiting, timer.id ≠ id) :
      Step prompt s (.cancelled id false) s
  | start (s : Service κ) (time : ℕ) (hphase : s.phase = .idle) :
      Step prompt s (.begins time) { s with phase := .seeking time, count := 0 }
  | call (s : Service κ) (time : ℕ) (timer : Timer κ) (rest : Multiset (Timer κ))
      (hphase : s.phase = .seeking time) (hwaits : s.waiting = timer ::ₘ rest)
      (hdue : timer.due ≤ time) :
      Step prompt s (.called timer) { s with waiting := rest, phase := .running time timer }
  | finish (s : Service κ) (time : ℕ) (timer : Timer κ) (hphase : s.phase = .running time timer) :
      Step prompt s .returned { s with phase := .seeking time, count := s.count + 1 }
  | stop (s : Service κ) (time : ℕ) (hphase : s.phase = .seeking time)
      (hdone : prompt → ∀ timer ∈ s.waiting, time < timer.due) :
      Step prompt s (.ended s.count) { s with phase := .idle }

inductive Steps (prompt : Prop) : Service κ → List (Event κ) → Service κ → Prop
  | nil (s : Service κ) : Steps prompt s [] s
  | snoc {s t u : Service κ} {events : List (Event κ)} {event : Event κ}
      (hsteps : Steps prompt s events t) (hstep : Step prompt t event u) :
      Steps prompt s (events ++ [event]) u

variable {prompt : Prop} {s t u : Service κ} {events events' : List (Event κ)} {event : Event κ}

theorem Steps.append (h : Steps prompt s events t) (h' : Steps prompt t events' u) :
    Steps prompt s (events ++ events') u := by
  induction h' with
  | nil => rwa [List.append_nil]
  | snoc _ hstep ih =>
      rw [← List.append_assoc]
      exact .snoc ih hstep

theorem Step.steps (h : Step prompt s event t) : Steps prompt s [event] t := .snoc (.nil s) h

end Service

/-! ## What becomes of the timers -/

def scheduledIn (events : List (Event κ)) : List (Timer κ) :=
  events.filterMap fun
    | .scheduled timer => some timer
    | _ => none

def calledIn (events : List (Event κ)) : List (Timer κ) :=
  events.filterMap fun
    | .called timer => some timer
    | _ => none

def cancelledIn (events : List (Event κ)) : List ℕ :=
  events.filterMap fun
    | .cancelled id true => some id
    | _ => none

theorem scheduledIn_append (events events' : List (Event κ)) :
    scheduledIn (events ++ events') = scheduledIn events ++ scheduledIn events' :=
  List.filterMap_append

theorem calledIn_append (events events' : List (Event κ)) :
    calledIn (events ++ events') = calledIn events ++ calledIn events' := List.filterMap_append

theorem cancelledIn_append (events events' : List (Event κ)) :
    cancelledIn (events ++ events') = cancelledIn events ++ cancelledIn events' :=
  List.filterMap_append

/-- Every timer has an id of its own, and waits, or has been called, or has been
cancelled: one of the three, and once. -/
structure Accounts (events : List (Event κ)) (s : Service κ) : Prop where
  distinct : ((scheduledIn events).map Timer.id).Nodup
  given : ∀ timer ∈ scheduledIn events, timer.id < s.nextId
  ids : (↑((scheduledIn events).map Timer.id) : Multiset ℕ) =
    s.waiting.map Timer.id + ↑((calledIn events).map Timer.id) + ↑(cancelledIn events)
  waiting : ∀ timer ∈ s.waiting, timer ∈ scheduledIn events
  called : ∀ timer ∈ calledIn events, timer ∈ scheduledIn events

namespace Accounts

variable {s t : Service κ} {events : List (Event κ)} {event : Event κ}

theorem new (κ : Type*) : Accounts [] (Service.new κ) where
  distinct := List.nodup_nil
  given := by simp [scheduledIn]
  ids := rfl
  waiting := by simp [Service.new]
  called := by simp [calledIn]

theorem unchanged (h : Accounts events s) (hscheduled : scheduledIn [event] = [])
    (hcalled : calledIn [event] = []) (hcancelled : cancelledIn [event] = [])
    (hwaiting : t.waiting = s.waiting) (hnext : t.nextId = s.nextId) :
    Accounts (events ++ [event]) t := by
  have hs : scheduledIn (events ++ [event]) = scheduledIn events := by
    rw [scheduledIn_append, hscheduled, List.append_nil]
  have hc : calledIn (events ++ [event]) = calledIn events := by
    rw [calledIn_append, hcalled, List.append_nil]
  have hx : cancelledIn (events ++ [event]) = cancelledIn events := by
    rw [cancelledIn_append, hcancelled, List.append_nil]
  constructor
  · rw [hs]
    exact h.distinct
  · rw [hs, hnext]
    exact h.given
  · rw [hs, hc, hx, hwaiting]
    exact h.ids
  · rw [hs, hwaiting]
    exact h.waiting
  · rw [hs, hc]
    exact h.called

theorem schedule (h : Accounts events s) (due : ℕ) (action : κ) :
    Accounts (events ++ [.scheduled ⟨s.nextId, due, action⟩])
      { s with waiting := ⟨s.nextId, due, action⟩ ::ₘ s.waiting, nextId := s.nextId + 1 } := by
  have hs := scheduledIn_append events [.scheduled ⟨s.nextId, due, action⟩]
  have hc := calledIn_append events [.scheduled ⟨s.nextId, due, action⟩]
  have hx := cancelledIn_append events [.scheduled ⟨s.nextId, due, action⟩]
  change _ = _ ++ [(⟨s.nextId, due, action⟩ : Timer κ)] at hs
  change _ = _ ++ [] at hc
  change _ = _ ++ [] at hx
  rw [List.append_nil] at hc hx
  constructor
  · rw [hs, List.map_append, List.map_singleton, ← List.concat_eq_append]
    apply List.Nodup.concat _ h.distinct
    intro hmem
    obtain ⟨timer, htimer, hid⟩ := List.mem_map.mp hmem
    have hlt := h.given timer htimer
    rw [hid] at hlt
    exact lt_irrefl _ hlt
  · intro timer htimer
    rw [hs, List.mem_append, List.mem_singleton] at htimer
    rcases htimer with htimer | rfl
    · exact (h.given timer htimer).trans (Nat.lt_succ_self _)
    · exact Nat.lt_succ_self _
  · rw [hs, hc, hx, List.map_append, List.map_singleton, Buckets.coe_concat, h.ids,
      Multiset.map_cons, Multiset.cons_add, Multiset.cons_add]
  · intro timer htimer
    rw [hs, List.mem_append, List.mem_singleton]
    rcases Multiset.mem_cons.mp htimer with rfl | htimer
    · exact .inr rfl
    · exact .inl (h.waiting timer htimer)
  · intro timer htimer
    rw [hc] at htimer
    rw [hs, List.mem_append]
    exact .inl (h.called timer htimer)

theorem cancel (h : Accounts events s) {timer : Timer κ} {rest : Multiset (Timer κ)}
    (hwaits : s.waiting = timer ::ₘ rest) :
    Accounts (events ++ [.cancelled timer.id true]) { s with waiting := rest } := by
  have hs := scheduledIn_append events [.cancelled timer.id true]
  have hc := calledIn_append events [.cancelled timer.id true]
  have hx := cancelledIn_append events [.cancelled timer.id true]
  change _ = _ ++ [] at hs
  change _ = _ ++ [] at hc
  change _ = _ ++ [timer.id] at hx
  rw [List.append_nil] at hs hc
  constructor
  · rw [hs]
    exact h.distinct
  · rw [hs]
    exact h.given
  · rw [hs, hc, hx, h.ids, hwaits, Multiset.map_cons, Buckets.coe_concat, Multiset.add_cons,
      Multiset.cons_add, Multiset.cons_add]
  · rw [hs]
    intro other hother
    exact h.waiting other (hwaits ▸ Multiset.mem_cons_of_mem hother)
  · rw [hs, hc]
    exact h.called

theorem call (h : Accounts events s) {timer : Timer κ} {rest : Multiset (Timer κ)}
    (phase : Phase κ) (hwaits : s.waiting = timer ::ₘ rest) :
    Accounts (events ++ [.called timer]) { s with waiting := rest, phase } := by
  have hs := scheduledIn_append events [.called timer]
  have hc := calledIn_append events [.called timer]
  have hx := cancelledIn_append events [.called timer]
  change _ = _ ++ [] at hs
  change _ = _ ++ [timer] at hc
  change _ = _ ++ [] at hx
  rw [List.append_nil] at hs hx
  have hmem : timer ∈ scheduledIn events := h.waiting timer (hwaits ▸ Multiset.mem_cons_self _ _)
  constructor
  · rw [hs]
    exact h.distinct
  · rw [hs]
    exact h.given
  · rw [hs, hc, hx, h.ids, hwaits, Multiset.map_cons, List.map_append, List.map_singleton,
      Buckets.coe_concat, Multiset.add_cons, Multiset.cons_add, Multiset.cons_add]
  · rw [hs]
    intro other hother
    exact h.waiting other (hwaits ▸ Multiset.mem_cons_of_mem hother)
  · intro other hother
    rw [hc, List.mem_append, List.mem_singleton] at hother
    rw [hs]
    rcases hother with hother | rfl
    · exact h.called other hother
    · exact hmem

theorem step {prompt : Prop} (h : Accounts events s) (hstep : Service.Step prompt s event t) :
    Accounts (events ++ [event]) t := by
  cases hstep with
  | schedule due action => exact h.schedule due action
  | cancel timer rest _ hwaits => exact h.cancel hwaits
  | miss id => exact h.unchanged rfl rfl rfl rfl rfl
  | start time => exact h.unchanged rfl rfl rfl rfl rfl
  | call time timer rest _ hwaits => exact h.call _ hwaits
  | finish time timer => exact h.unchanged rfl rfl rfl rfl rfl
  | stop time => exact h.unchanged rfl rfl rfl rfl rfl

end Accounts

/-- **Whatever a new service has done, no timer is called twice or after it was
cancelled, and none is lost.** -/
theorem accounts {prompt : Prop} {events : List (Event κ)} {s : Service κ}
    (h : Service.Steps prompt (.new κ) events s) : Accounts events s := by
  induction h with
  | nil => exact .new κ
  | snoc _ hstep ih => exact ih.step hstep

end UltraHft.Lib.TimerService
