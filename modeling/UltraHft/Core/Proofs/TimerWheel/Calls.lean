import UltraHft.Core.Proofs.TimerWheel.Tick
import UltraHft.Lib.Runs

/-!
# Runs of a timer wheel

The calls that change a wheel, one after another.  A `tick` that never comes
back ends the run.
-/

namespace UltraHft.Core

open UltraHft.Lib

inductive WheelCall (C : Type*) where
  | schedule (durationNs : Nat) (callback : C)
  | scheduleAt (absoluteTimeNs : Nat) (callback : C)
  | scheduleRecurring (intervalNs : Nat) (callback : C)
  | cancel (timerId : Nat)
  | tick (currentTimeNs : Nat)

namespace TimerWheel

variable {C : Type*} {w w' : TimerWheel C} {now : Nat} {calls : List (WheelCall C)}

noncomputable def step (w : TimerWheel C) : WheelCall C → Option (TimerWheel C)
  | .schedule durationNs callback => some (w.schedule durationNs callback).2
  | .scheduleAt absoluteTimeNs callback => some (w.scheduleAt absoluteTimeNs callback).2
  | .scheduleRecurring intervalNs callback => some (w.scheduleRecurring intervalNs callback).2
  | .cancel timerId => some (w.cancel timerId).2
  | .tick currentTimeNs =>
      (Loop.outcome fun fuel => w.tick fuel currentTimeNs).map Ticking.wheel

theorem step_tick_eq_some :
    w.step (.tick now) = some w' ↔ ∃ n r, w.tick n now = some r ∧ r.wheel = w' := by
  rw [step, Option.map_eq_some_iff]
  simp only [Loop.outcome_eq_some fun _ _ _ hnm => tick_mono hnm]
  constructor
  · intro ⟨r, ⟨n, hr⟩, hw⟩
    exact ⟨n, r, hr, hw⟩
  · intro ⟨n, r, hr, hw⟩
    exact ⟨r, ⟨n, hr⟩, hw⟩

theorem exists_step_tick :
    (∃ w', w.step (.tick now) = some w') ↔ ∃ n r, w.tick n now = some r := by
  constructor
  · intro ⟨w', h⟩
    have ⟨n, r, hr, _⟩ := step_tick_eq_some.mp h
    exact ⟨n, r, hr⟩
  · intro ⟨n, r, hr⟩
    exact ⟨r.wheel, step_tick_eq_some.mpr ⟨n, r, hr, rfl⟩⟩

def NeverRearms (w : TimerWheel C) (calls : List (WheelCall C)) : Prop :=
  ∀ pre now, pre ++ [.tick now] <+: calls →
    ∀ v, Runs.exec step w pre = some v → ¬ v.RearmsDuring now

/-- Only a tick can fail to return, and it does so when a timer rearms. -/
theorem exists_step_iff (call : WheelCall C)
    (hcall : ∀ now, call = .tick now → now + tickIntervalNs < 2 ^ 64) :
    (∃ w', w.step call = some w') ↔ ∀ now, call = .tick now → ¬ w.RearmsDuring now := by
  cases call with
  | tick now =>
      rw [exists_step_tick, exists_tick_iff (noOverflow_of_lt (hcall now rfl))]
      simp
  | schedule durationNs callback => simp [step]
  | scheduleAt absoluteTimeNs callback => simp [step]
  | scheduleRecurring intervalNs callback => simp [step]
  | cancel timerId => simp [step]

/-- **From any state of a wheel, the calls of a run all return exactly when no
recurring timer rearms at a tick.** -/
theorem returns_iff_neverRearms (w : TimerWheel C) (calls : List (WheelCall C))
    (hticks : ∀ now, .tick now ∈ calls → now + tickIntervalNs < 2 ^ 64) :
    (∃ w', Runs.exec step w calls = some w') ↔ NeverRearms w calls := by
  have hreturns : (∃ w', Runs.exec step w calls = some w') ↔
      ∀ pre call, pre ++ [call] <+: calls → ∀ v, Runs.exec step w pre = some v →
        ∀ now, call = .tick now → ¬ v.RearmsDuring now := by
    apply Runs.exec_returns_iff (fun _ _ => True)
      (fun (v : TimerWheel C) (call : WheelCall C) =>
        ∀ now, call = .tick now → ¬ v.RearmsDuring now) trivial
    · intro _ _ _ _ _ _
      trivial
    · intro pre call v hpre _
      apply exists_step_iff
      intro now hnow
      exact hticks now (hpre.subset (by simp [hnow]))
  rw [hreturns]
  constructor
  · intro h pre now hpre v hv
    exact h pre (.tick now) hpre v hv now rfl
  · intro h pre call hpre v hv now hcall
    subst hcall
    exact h pre now hpre v hv

/-- A timer that recurs every two milliseconds, and a jump of five. -/
theorem returns_iff_neverRearms_twoMilliseconds :
    NeverRearms (new Unit defaultWheelSize (by decide))
      [.scheduleRecurring 2000000 (), .tick 5000000] := by
  apply (returns_iff_neverRearms _ _ (by simp [tickIntervalNs])).mp
  have hrun : (((new Unit defaultWheelSize (by decide)).scheduleRecurring 2000000 ()).2.tick
      10 5000000).isSome := by decide +kernel
  have ⟨r, hr⟩ := Option.isSome_iff_exists.mp hrun
  have ⟨w', hw'⟩ := exists_step_tick.mpr ⟨10, r, hr⟩
  exact ⟨w', by rw [Runs.exec, step, Option.bind_some, Runs.exec, hw']; rfl⟩

/-- A timer that recurs within the millisecond keeps the tick going forever. -/
theorem halfMillisecond_hangs :
    ¬ ∀ (calls : List (WheelCall Unit)) (w : TimerWheel Unit) (now : Nat),
      Runs.exec step (new Unit defaultWheelSize (by decide)) calls = some w →
      now + tickIntervalNs < 2 ^ 64 → ∃ n r, w.tick n now = some r := by
  intro hall
  have hlt : 1000000 + tickIntervalNs < 2 ^ 64 := by decide
  have htick := hall [.scheduleRecurring 500000 ()] _ 1000000 rfl hlt
  rw [exists_tick_iff (noOverflow_of_lt hlt)] at htick
  have hmem : (⟨1, 500000, .recurring 1 500000 ()⟩ : TimerNode Unit) ∈
      ((new Unit defaultWheelSize (by decide)).scheduleRecurring 500000 ()).2.wheels_ 0 := by
    decide
  have hfires : FiresAt ((new Unit defaultWheelSize (by decide)).scheduleRecurring 500000 ()).2
      1000000 0 500000 :=
    .start hmem rfl (by decide) (FirstVisit.here (by decide))
  exact htick ⟨0, 500000, hfires, by decide, by decide⟩

end TimerWheel

end UltraHft.Core
