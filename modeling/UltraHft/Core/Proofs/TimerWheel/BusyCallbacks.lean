import UltraHft.Core.Proofs.TimerWheel.CallbackRequests

/-!
# The wheel as a service to its callbacks

The wheel does what a timer service does: what callbacks schedule is called once, and what
they cancel is not.  As long as nothing due lies behind `current_tick_` it is a prompt
service: when `tick` returns nothing that waits is due.
-/

namespace UltraHft.Core.TimerWheel

open UltraHft.Lib
open TimerService (Event Service)

variable {C : Type*} {w : TimerWheel C} {s s' : Reentrant C} {t : Service C} {now it : Nat}
  {node : TimerNode C} {events : List (Event C)} {prompt : Prop}

/-! ## The loops of `tick` -/

theorem enter_follows (hsettled : Settled prompt s.wheel)
    (hnext : t.nextId = s.wheel.next_timer_id_) (hcount : t.count = s.expiredCount)
    (hphase : t.phase = .seeking now)
    (hwaiting : t.waiting = s.wheel.pendingNodes.map TimerNode.timer)
    (hfits : prompt → now + tickIntervalNs < 2 ^ 64)
    (hahead : prompt → ∀ b, ∀ node ∈ s.wheel.wheels_ b, node.expireTime ≤ now →
      s.wheel.current_tick_ ≤ node.expireTime) :
    ∃ t', t.Steps prompt (s.enter now).1 t' ∧ Follows prompt (s.enter now).2 t' := by
  unfold Reentrant.enter
  split_ifs with hle
  · refine ⟨t, .nil t, hsettled, hnext, hcount, hphase, ?_, hwaiting⟩
    exact ⟨hle, hfits, fun j hj => absurd hj (Nat.not_lt_zero j), hahead⟩
  · have hdone : prompt → ∀ timer ∈ t.waiting, now < timer.due := by
      intro hprompt timer htimer
      rw [hwaiting] at htimer
      obtain ⟨node, hnode, rfl⟩ := Multiset.mem_map.mp htimer
      obtain ⟨b, -, hmem⟩ := mem_pendingNodes.mp hnode
      by_contra hdue
      exact hle ((hahead hprompt b node hmem (Nat.le_of_not_lt hdue)).trans (Nat.le_of_not_lt hdue))
    have hstep : t.Step prompt _ _ := .stop t now hphase hdone
    rw [hcount] at hstep
    exact ⟨_, hstep.steps, hsettled, hnext, rfl, rfl, hwaiting⟩

theorem Passing.ahead_next (h : Passing prompt w now it) (hsettled : Settled prompt w)
    (hprompt : prompt) (hend : (w.wheels_ w.currentBucket)[it]? = none) {b : Nat}
    (hnode : node ∈ w.wheels_ b) (hdue : node.expireTime ≤ now) :
    w.current_tick_ + tickIntervalNs ≤ node.expireTime := by
  by_contra hsoon
  have hle := h.ahead hprompt b node hnode hdue
  obtain ⟨c, hc⟩ := hsettled.aligned hprompt
  have hsame : node.expireTime / tickIntervalNs = w.current_tick_ / tickIntervalNs := by
    simp only [tickIntervalNs] at *
    omega
  have hb : b = w.currentBucket := by
    rw [← hsettled.placed b node hnode, bucketOf, hsame]
    rfl
  subst hb
  obtain ⟨j, hj⟩ := List.mem_iff_getElem?.mp hnode
  obtain ⟨hlt, -⟩ := List.getElem?_eq_some_iff.mp hj
  have hlength := List.getElem?_eq_none_iff.mp hend
  have hpassed := h.passed j (by omega) node hj
  omega

/-- From the end of a bucket to the next one, at a time that need not be computed. -/
theorem Follows.enter_at (h : Follows prompt s t) (hphase : t.phase = .seeking now)
    (hpassing : Passing prompt s.wheel now it)
    (hwaiting : t.waiting = s.wheel.pendingNodes.map TimerNode.timer)
    (hend : (s.wheel.wheels_ s.bucket)[it]? = none) (time : Nat)
    (htime : prompt → time = s.wheel.current_tick_ + tickIntervalNs) :
    ∃ t', t.Steps prompt ((s.atTick time).enter now).1 t' ∧
      Follows prompt ((s.atTick time).enter now).2 t' := by
  have hsettled : Settled prompt (s.atTick time).wheel := by
    refine ⟨h.settled.distinct, h.settled.given, h.settled.placed, ?_⟩
    intro hprompt
    change tickIntervalNs ∣ time
    rw [htime hprompt]
    exact Nat.dvd_add (h.settled.aligned hprompt) (Nat.dvd_refl _)
  refine enter_follows (s := s.atTick time) hsettled h.nextId h.count hphase hwaiting
    hpassing.fits ?_
  intro hprompt b node hmem hdue
  change time ≤ node.expireTime
  rw [htime hprompt]
  exact hpassing.ahead_next h.settled hprompt hend hmem hdue

theorem Follows.nextBucket (h : Follows prompt s t) (hphase : t.phase = .seeking now)
    (hpassing : Passing prompt s.wheel now it)
    (hwaiting : t.waiting = s.wheel.pendingNodes.map TimerNode.timer)
    (hend : (s.wheel.wheels_ s.bucket)[it]? = none) :
    ∃ t', t.Steps prompt (s.nextBucket.enter now).1 t' ∧
      Follows prompt (s.nextBucket.enter now).2 t' := by
  rw [Reentrant.nextBucket]
  apply h.enter_at hphase hpassing hwaiting hend
  intro hprompt
  have hreached := hpassing.reached
  have hfits := hpassing.fits hprompt
  exact Nat.mod_eq_of_lt (by omega)

theorem Follows.goOn (h : Follows prompt s t) (hstep : s.step .goOn = some (events, s')) :
    ∃ t', t.Steps prompt events t' ∧ Follows prompt s' t' := by
  rw [Reentrant.step] at hstep
  have hin := h.inStep
  cases hc : s.control with
  | outside =>
      rw [hc] at hstep
      cases hstep
  | inCallback now it =>
      rw [hc] at hstep
      cases hstep
  | inTick now it =>
      rw [hc] at hstep hin
      obtain ⟨hphase, hpassing, hwaiting⟩ := hin
      dsimp only at hstep
      cases hnode : (s.wheel.wheels_ s.bucket)[it]? with
      | none =>
          rw [hnode] at hstep
          obtain rfl : _ = events := congrArg Prod.fst (Option.some.inj hstep)
          obtain rfl : _ = s' := congrArg Prod.snd (Option.some.inj hstep)
          exact h.nextBucket hphase hpassing hwaiting hnode
      | some node =>
          rw [hnode] at hstep
          dsimp only at hstep
          split_ifs at hstep with hdue
          · obtain ⟨rfl, rfl⟩ := Prod.mk.inj (Option.some.inj hstep)
            have hmem := pending_of_getElem? h.settled.placed hnode
            obtain ⟨others, hothers⟩ := Multiset.exists_cons_of_mem hmem
            have hwaits : t.waiting = node.timer ::ₘ others.map TimerNode.timer := by
              rw [hwaiting, hothers, Multiset.map_cons]
            refine ⟨_, (Service.Step.call t now node.timer _ hphase hwaits hdue).steps,
              h.settled, h.nextId, h.count, node, hnode, rfl, hpassing, ?_⟩
            rw [hothers, Multiset.map_cons]
          · obtain ⟨rfl, rfl⟩ := Prod.mk.inj (Option.some.inj hstep)
            refine ⟨t, .nil t, h.settled, h.nextId, h.count, hphase, ?_, hwaiting⟩
            refine ⟨hpassing.reached, hpassing.fits, ?_, hpassing.ahead⟩
            intro j hj other hother
            rcases Nat.lt_succ_iff_lt_or_eq.mp hj with hlt | rfl
            · exact hpassing.passed j hlt other hother
            · obtain rfl := Option.some.inj (hnode.symm.trans hother)
              exact Nat.lt_of_not_le hdue

theorem Follows.finish (h : Follows prompt s t) (hc : s.control = .inCallback now it) :
    ∃ t', t.Step prompt .returned t' ∧ Follows prompt
      { wheel := s.wheel.erased s.bucket it, control := .inTick now it,
        expiredCount := s.expiredCount + 1 } t' := by
  have hin := h.inStep
  rw [hc] at hin
  obtain ⟨node, hnode, hphase, hpassing, hwaiting⟩ := hin
  have hb : s.bucket < s.wheel.wheel_size_ := s.wheel.bucketOf_lt _
  have hpending := pendingNodes_erased hb hnode
  refine ⟨_, .finish t now node.timer hphase, h.settled.erased hb hnode, h.nextId,
    congrArg (· + 1) h.count, rfl, hpassing.erase_after (.inr (Nat.le_refl it)), ?_⟩
  rw [hpending, Multiset.map_cons] at hwaiting
  exact ((Multiset.cons_inj_right _).mp hwaiting).symm

/-! ## Runs -/

def Control.callbackNow : Control → Option Nat
  | .inCallback now _ => some now
  | _ => none

/-- The ids do not run out.  For a prompt service, also no time leaves its 64 bits, and
nothing is due from before `current_tick_`: neither when a tick begins, nor by what its
callbacks schedule. -/
def Reentrant.Admits (prompt : Prop) (s : Reentrant C) : WheelStep C → Prop
  | .request (.schedule durationNs _) => s.wheel.next_timer_id_ + 1 < 2 ^ 64 ∧
      (prompt → s.wheel.current_tick_ + durationNs < 2 ^ 64)
  | .request (.scheduleAt absoluteTimeNs _) => s.wheel.next_timer_id_ + 1 < 2 ^ 64 ∧
      (prompt → ∀ now ∈ s.control.callbackNow, absoluteTimeNs ≤ now →
        s.wheel.current_tick_ ≤ absoluteTimeNs)
  | .request (.scheduleRecurring intervalNs _) => s.wheel.next_timer_id_ + 1 < 2 ^ 64 ∧
      (prompt → s.wheel.current_tick_ + intervalNs < 2 ^ 64)
  | .request (.cancel _) => True
  | .tick now => prompt → now + tickIntervalNs < 2 ^ 64 ∧ ∀ b < s.wheel.wheel_size_,
      ∀ node ∈ s.wheel.wheels_ b, node.expireTime ≤ now →
        s.wheel.current_tick_ ≤ node.expireTime
  | .goOn => True
  | .leave => ∀ node ∈ s.running, ∀ i ∈ interval node, s.wheel.next_timer_id_ + 1 < 2 ^ 64 ∧
      (prompt → s.wheel.current_tick_ + i < 2 ^ 64)

instance [Decidable prompt] (s : Reentrant C) (step : WheelStep C) :
    Decidable (s.Admits prompt step) :=
  match step with
  | .request (.schedule _ _) => inferInstanceAs (Decidable (_ ∧ _))
  | .request (.scheduleAt _ _) => inferInstanceAs (Decidable (_ ∧ _))
  | .request (.scheduleRecurring _ _) => inferInstanceAs (Decidable (_ ∧ _))
  | .request (.cancel _) => inferInstanceAs (Decidable True)
  | .tick _ => inferInstanceAs (Decidable (prompt → _ ∧ _))
  | .goOn => inferInstanceAs (Decidable True)
  | .leave => inferInstanceAs (Decidable (∀ node ∈ s.running, ∀ i ∈ interval node, _ ∧ _))

theorem Follows.request (h : Follows prompt s t) (hasks : s.Asks)
    (request : WheelRequest C) {event : Event C} (hadmits : s.Admits prompt (.request request))
    (hrequest : s.request request = some (event, s')) :
    ∃ t', t.Step prompt event t' ∧ Follows prompt s' t' := by
  -- a time that does not overflow is not before `current_tick_`
  have hlater : ∀ d, (prompt → s.wheel.current_tick_ + d < 2 ^ 64) → prompt → ∀ now it,
      s.control = .inCallback now it → wrap (s.wheel.current_tick_ + d) ≤ now →
        s.wheel.current_tick_ ≤ wrap (s.wheel.current_tick_ + d) := by
    intro d hfits hprompt now it _ _
    rw [wrap, Nat.mod_eq_of_lt (hfits hprompt)]
    exact Nat.le_add_right _ d
  cases request with
  | schedule durationNs callback =>
      obtain ⟨rfl, rfl⟩ := Prod.mk.inj (Option.some.inj hrequest)
      exact h.emplace (wrap (s.wheel.current_tick_ + durationNs)) (.user callback) hadmits.1
        hasks (hlater durationNs hadmits.2)
  | scheduleAt absoluteTimeNs callback =>
      obtain ⟨rfl, rfl⟩ := Prod.mk.inj (Option.some.inj hrequest)
      exact h.emplace absoluteTimeNs (.user callback) hadmits.1 hasks
        fun hprompt now it hc => hadmits.2 hprompt now (by rw [hc]; rfl)
  | scheduleRecurring intervalNs callback =>
      obtain ⟨rfl, rfl⟩ := Prod.mk.inj (Option.some.inj hrequest)
      exact h.emplace (wrap (s.wheel.current_tick_ + intervalNs))
        (.recurring s.wheel.next_timer_id_ intervalNs callback) hadmits.1 hasks
        (hlater intervalNs hadmits.2)
  | cancel timerId => exact h.cancel hasks hrequest

/-- The wrapper of a recurring timer schedules the next occurrence, then returns. -/
theorem Follows.leave (h : Follows prompt s t) (hadmits : s.Admits prompt .leave)
    (hstep : s.step .leave = some (events, s')) :
    ∃ t', t.Steps prompt events t' ∧ Follows prompt s' t' := by
  rw [Reentrant.step] at hstep
  cases hc : s.control with
  | outside =>
      rw [hc] at hstep
      cases hstep
  | inTick now it =>
      rw [hc] at hstep
      cases hstep
  | inCallback now it =>
      rw [hc] at hstep
      obtain ⟨node, hnode, heq⟩ := Option.map_eq_some_iff.mp hstep
      have hrunning : s.running = some node := by
        rw [Reentrant.running, hc]
        exact hnode
      cases hcb : node.callback with
      | user callback =>
          rw [hcb] at heq
          obtain ⟨rfl, rfl⟩ := Prod.mk.inj heq
          obtain ⟨t', hfinish, hfollows⟩ := h.finish hc
          exact ⟨t', hfinish.steps, hfollows⟩
      | recurring id i callback =>
          rw [hcb] at heq
          obtain ⟨rfl, rfl⟩ := Prod.mk.inj heq
          have hinterval : interval node = some i := by rw [interval, hcb]
          have hasks : s.Asks := by
            intro now' it' hin
            rw [hc] at hin
            cases hin
          obtain ⟨t₁, hschedule, hfollows₁⟩ := h.request hasks
            (.scheduleRecurring i callback) (hadmits node hrunning i hinterval) rfl
          obtain ⟨t', hfinish, hfollows⟩ := hfollows₁.finish hc
          exact ⟨t', hschedule.steps.append hfinish.steps, hfollows⟩

/-- Every step that is defined is one of the service, or of several. -/
theorem Follows.step (h : Follows prompt s t) {step : WheelStep C}
    (hadmits : s.Admits prompt step) (hstep : s.step step = some (events, s')) :
    ∃ t', t.Steps prompt events t' ∧ Follows prompt s' t' := by
  cases step with
  | request request =>
      have hasks : s.Asks := by
        intro now it hc
        rw [Reentrant.step, hc] at hstep
        cases hstep
      have hdefined : (s.request request).map (fun r => ([r.1], r.2)) = some (events, s') := by
        rw [← hstep, Reentrant.step]
        cases hc : s.control with
        | outside => rfl
        | inTick now it => exact absurd hc (hasks now it)
        | inCallback now it => rfl
      obtain ⟨r, hrequest, heq⟩ := Option.map_eq_some_iff.mp hdefined
      obtain ⟨rfl, rfl⟩ := Prod.mk.inj heq
      obtain ⟨t', hevent, hfollows⟩ := h.request hasks request hadmits hrequest
      exact ⟨t', hevent.steps, hfollows⟩
  | tick now =>
      rw [Reentrant.step] at hstep
      have hin := h.inStep
      cases hc : s.control with
      | inTick now it =>
          rw [hc] at hstep
          cases hstep
      | inCallback now it =>
          rw [hc] at hstep
          cases hstep
      | outside =>
          rw [hc] at hstep hin
          obtain ⟨rfl, rfl⟩ := Prod.mk.inj (Option.some.inj hstep)
          have hahead : prompt → ∀ b, ∀ node ∈ s.wheel.wheels_ b, node.expireTime ≤ now →
              s.wheel.current_tick_ ≤ node.expireTime := by
            intro hprompt b node hnode hdue
            have hb := s.wheel.bucketOf_lt node.expireTime
            rw [h.settled.placed b node hnode] at hb
            exact (hadmits hprompt).2 b hb node hnode hdue
          obtain ⟨t', hsteps, hfollows⟩ := enter_follows (s := { s with expiredCount := 0 })
            (t := { t with phase := .seeking now, count := 0 }) h.settled h.nextId rfl rfl hin.2
            (fun hprompt => (hadmits hprompt).1) hahead
          exact ⟨t', (Service.Step.start t now hin.1).steps.append hsteps, hfollows⟩
  | goOn => exact h.goOn hstep
  | leave => exact h.leave hadmits hstep

def Reentrant.Admitted (prompt : Prop) (s : Reentrant C) : List (WheelStep C) → Prop
  | [] => True
  | step :: steps =>
      s.Admits prompt step ∧ (s.step step).elim True fun r => r.2.Admitted prompt steps

def Reentrant.admittedDecidable [Decidable prompt] (s : Reentrant C) :
    (steps : List (WheelStep C)) → Decidable (s.Admitted prompt steps)
  | [] => .isTrue trivial
  | step :: steps =>
      match hstep : s.step step with
      | none => decidable_of_iff (s.Admits prompt step) (by simp [Reentrant.Admitted, hstep])
      | some r =>
          have := r.2.admittedDecidable steps
          decidable_of_iff (s.Admits prompt step ∧ r.2.Admitted prompt steps)
            (by simp [Reentrant.Admitted, hstep])

instance [Decidable prompt] (s : Reentrant C) (steps : List (WheelStep C)) :
    Decidable (s.Admitted prompt steps) := s.admittedDecidable steps

theorem Reentrant.run_cons {step : WheelStep C} {steps : List (WheelStep C)}
    {result : List (Event C) × Reentrant C} (h : s.run (step :: steps) = some result) :
    ∃ events s' more s'', s.step step = some (events, s') ∧ s'.run steps = some (more, s'') ∧
      result = (events ++ more, s'') := by
  obtain ⟨⟨events, s'⟩, hstep, h⟩ := Option.bind_eq_some_iff.mp h
  obtain ⟨⟨more, s''⟩, hrun, h⟩ := Option.bind_eq_some_iff.mp h
  exact ⟨events, s', more, s'', hstep, hrun, (Option.some.inj h).symm⟩

theorem Follows.run (h : Follows prompt s t) {steps : List (WheelStep C)}
    (hadmitted : s.Admitted prompt steps) (hrun : s.run steps = some (events, s')) :
    ∃ t', t.Steps prompt events t' ∧ Follows prompt s' t' := by
  induction steps generalizing s t events with
  | nil =>
      obtain ⟨rfl, rfl⟩ := Prod.mk.inj (Option.some.inj hrun)
      exact ⟨t, .nil t, h⟩
  | cons step steps ih =>
      obtain ⟨first, s₁, more, s₂, hstep, hrest, heq⟩ := Reentrant.run_cons hrun
      obtain ⟨rfl, rfl⟩ := Prod.mk.inj heq
      obtain ⟨t₁, hsteps₁, h₁⟩ := h.step hadmitted.1 hstep
      have hadmitted₁ : s₁.Admitted prompt steps := by
        have hlater := hadmitted.2
        rwa [hstep] at hlater
      obtain ⟨t₂, hsteps₂, h₂⟩ := ih h₁ hadmitted₁ hrest
      exact ⟨t₂, hsteps₁.append hsteps₂, h₂⟩

/-- **The wheel serves its callbacks.** Whatever the callbacks of a new wheel schedule and
cancel, and whenever ticks come, what is seen of the wheel is what a timer service does:
no timer is called before its time, twice or after it was cancelled, and none is lost.
Where every step is admitted for a prompt service, nothing that waits is due when a tick
returns.  The one request of a callback that is not defined is to cancel the timer it runs
for. -/
theorem serves_callbacks (prompt : Prop) (size : Nat) (hsize : 0 < size)
    (steps : List (WheelStep C)) (events : List (Event C)) (s : Reentrant C)
    (hadmitted : (Reentrant.new C size hsize).Admitted prompt steps)
    (hrun : (Reentrant.new C size hsize).run steps = some (events, s)) :
    ∃ t, Service.Steps prompt (.new C) events t ∧ TimerService.Accounts events t ∧
      (s.control = .outside → t.waiting = s.wheel.pendingNodes.map TimerNode.timer) ∧
      ∀ node, s.running = some node → ∀ timerId,
        (s.step (.request (.cancel timerId)) = none ↔ timerId = node.id) := by
  obtain ⟨t, hsteps, hfollows⟩ := (follows_new size hsize).run hadmitted hrun
  refine ⟨t, hsteps, TimerService.accounts hsteps, ?_, ?_⟩
  · intro hc
    have hin := hfollows.inStep
    rw [hc] at hin
    exact hin.2
  · intro node hrunning timerId
    exact hfollows.cancel_undefined hrunning timerId

/-- The first timer cancels the second, and schedules a third for the same millisecond. -/
def busySteps : List (WheelStep Unit) :=
  [.request (.schedule 0 ()), .request (.schedule 999999 ()), .tick 999999, .goOn,
    .request (.cancel 2), .request (.schedule 500000 ()), .leave, .goOn, .leave, .goOn]

def busyEvents : List (Event Unit) :=
  [.scheduled ⟨1, 0, ()⟩, .scheduled ⟨2, 999999, ()⟩, .begins 999999, .called ⟨1, 0, ()⟩,
    .cancelled 2 true, .scheduled ⟨3, 500000, ()⟩, .returned, .called ⟨3, 500000, ()⟩, .returned,
    .ended 2]

theorem serves_callbacks_busy :
    (Reentrant.new Unit defaultWheelSize (by decide)).Admitted True busySteps ∧ ∃ s t,
      (Reentrant.new Unit defaultWheelSize (by decide)).run busySteps = some (busyEvents, s) ∧
        Service.Steps True (.new Unit) busyEvents t ∧ TimerService.Accounts busyEvents t := by
  have hadmitted : (Reentrant.new Unit defaultWheelSize (by decide)).Admitted True busySteps := by
    decide +kernel
  obtain ⟨⟨events, s⟩, hrun, rfl⟩ := Option.map_eq_some_iff.mp
    (show ((Reentrant.new Unit defaultWheelSize (by decide)).run busySteps).map Prod.fst =
      some busyEvents from by decide +kernel)
  obtain ⟨t, hsteps, haccounts, -⟩ :=
    serves_callbacks True defaultWheelSize (by decide) busySteps _ s hadmitted hrun
  exact ⟨hadmitted, s, t, hrun, hsteps, haccounts⟩

end UltraHft.Core.TimerWheel
