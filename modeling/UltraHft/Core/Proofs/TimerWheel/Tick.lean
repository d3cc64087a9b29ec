import UltraHft.Core.Proofs.TimerWheel.Bucket

/-!
# Advancing the wheel

`tick` visits one bucket after another.  Which occurrences of a recurring timer
fire in the course of it, and at which visits, follows from the state of the
wheel before the tick: an occurrence that is due fires at the next visit to its
bucket and brings about the one after it.  The tick returns exactly when none of
them rearms.
-/

namespace UltraHft.Core.TimerWheel

open UltraHft.Lib

variable {C : Type*} {w w' : TimerWheel C} {now n m b c c' i : Nat} {s s' : Ticking C}

def atTick (w : TimerWheel C) (time : Nat) : TimerWheel C := { w with current_tick_ := time }

@[simp] theorem atTick_wheels : (w.atTick b).wheels_ = w.wheels_ := rfl

@[simp] theorem atTick_size : (w.atTick b).wheel_size_ = w.wheel_size_ := rfl

@[simp] theorem atTick_tick : (w.atTick b).current_tick_ = b := rfl

/-- The variables of `tick` after the bucket of `current_tick_`. -/
def Ticking.advance (s : Ticking C) : Ticking C :=
  { s with wheel := s.wheel.atTick (wrap (s.wheel.current_tick_ + tickIntervalNs)) }

theorem advance_wheels : s.advance.wheel.wheels_ = s.wheel.wheels_ := by
  rw [Ticking.advance, atTick_wheels]

theorem advance_size : s.advance.wheel.wheel_size_ = s.wheel.wheel_size_ := by
  rw [Ticking.advance, atTick_size]

theorem advance_tick :
    s.advance.wheel.current_tick_ = wrap (s.wheel.current_tick_ + tickIntervalNs) := by
  rw [Ticking.advance, atTick_tick]

theorem tickBody_past (h : ¬ s.wheel.current_tick_ ≤ now) :
    tickBody n now s = some (.inr s) := by
  rw [tickBody, if_neg h]

theorem tickBody_reached (h : s.wheel.current_tick_ ≤ now) :
    tickBody n now s = (Loop.run (bucketBody now s.wheel.currentBucket) n (s, 0)).map
      fun t => .inl t.advance := by
  rw [tickBody, if_pos h]
  unfold currentBucket
  dsimp only
  cases Loop.run (bucketBody now (s.wheel.bucketOf s.wheel.current_tick_)) n (s, 0) <;> rfl

theorem tickBody_mono (hnm : n ≤ m) {x : Ticking C ⊕ Ticking C}
    (h : tickBody n now s = some x) : tickBody m now s = some x := by
  by_cases hle : s.wheel.current_tick_ ≤ now
  · rw [tickBody_reached hle, Option.map_eq_some_iff] at h
    have ⟨t, ht, hx⟩ := h
    rw [tickBody_reached hle, Loop.run_mono hnm ht, ← hx]
    rfl
  · rw [tickBody_past hle] at h ⊢
    exact h

theorem tick_mono (hnm : n ≤ m) {r : Ticking C} (h : w.tick n now = some r) :
    w.tick m now = some r :=
  Loop.run_mono_body (fun _ _ => tickBody_mono hnm) hnm h

/-- `current_tick_` does not overflow in a tick to `now`. -/
def NoOverflow (w : TimerWheel C) (now : Nat) : Prop :=
  ∀ k, w.current_tick_ + k * tickIntervalNs ≤ now →
    w.current_tick_ + (k + 1) * tickIntervalNs < 2 ^ 64

theorem noOverflow_of_lt (h : now + tickIntervalNs < 2 ^ 64) : NoOverflow w now := by
  intro k hk
  rw [Nat.succ_mul]
  omega

theorem NoOverflow.wrap_tick (h : NoOverflow w now) (hle : w.current_tick_ ≤ now) :
    wrap (w.current_tick_ + tickIntervalNs) = w.current_tick_ + tickIntervalNs := by
  have hlt := h 0 (by omega)
  exact Nat.mod_eq_of_lt (by omega)

/-! ## One visit -/

/-- What a visit to the current bucket of `w` makes of the wheel. -/
structure Visit (w : TimerWheel C) (now : Nat) (w' : TimerWheel C) : Prop where
  reached : w.current_tick_ ≤ now
  size : w'.wheel_size_ = w.wheel_size_
  tick : w'.current_tick_ = w.current_tick_ + tickIntervalNs
  passed : ∀ node ∈ w'.wheels_ w.currentBucket, ¬ node.expireTime ≤ now
  origin : ∀ b, ∀ node ∈ w'.wheels_ b, node ∈ w.wheels_ b ∨ Respawned w now b node
  kept : ∀ b, ∀ node ∈ w.wheels_ b, (b ≠ w.currentBucket ∨ ¬ node.expireTime ≤ now) →
    node ∈ w'.wheels_ b
  next : ∀ i, DueHere w now i → w.bucketOf (w.nextTime i) ≠ w.currentBucket →
    ∃ node ∈ w'.wheels_ (w.bucketOf (w.nextTime i)),
      interval node = some i ∧ node.expireTime = w.nextTime i

theorem visit_of_tickBody (hfit : NoOverflow s.wheel now)
    (h : tickBody n now s = some (.inl s')) : Visit s.wheel now s'.wheel := by
  by_cases hle : s.wheel.current_tick_ ≤ now
  · rw [tickBody_reached hle, Option.map_eq_some_iff] at h
    have ⟨t, ht, hx⟩ := h
    have ⟨l, hwalk⟩ := bucket_exit (Walking.start s.wheel now s.expiredCount s.fired) ht
    have hhere := hwalk.here
    rw [List.append_nil] at hhere
    rw [← Sum.inl.inj hx]
    constructor
    case reached => exact hle
    case size => rw [advance_size, hwalk.size]
    case tick => rw [advance_tick, hwalk.tick, hfit.wrap_tick hle]
    case passed =>
      rw [advance_wheels, hhere]
      exact hwalk.passed
    case origin =>
      rw [advance_wheels]
      exact hwalk.origin
    case kept =>
      rw [advance_wheels]
      exact hwalk.kept
    case next =>
      intro i hi
      rw [advance_wheels]
      exact (hwalk.next i hi).resolve_left (by simp)
  · rw [tickBody_past hle] at h
    cases h

theorem tickBody_leave (h : tickBody n now s = some (.inr s')) :
    s' = s ∧ ¬ s.wheel.current_tick_ ≤ now := by
  by_cases hle : s.wheel.current_tick_ ≤ now
  · rw [tickBody_reached hle, Option.map_eq_some_iff] at h
    have ⟨t, _, hx⟩ := h
    cases hx
  · rw [tickBody_past hle] at h
    exact ⟨(Sum.inr.inj (Option.some.inj h)).symm, hle⟩

theorem Visit.bucketOf_eq (h : Visit w now w') (time : Nat) :
    w'.bucketOf time = w.bucketOf time := by
  rw [bucketOf, bucketOf, h.size]

theorem Visit.noOverflow (h : Visit w now w') (hfit : NoOverflow w now) : NoOverflow w' now := by
  intro k hk
  rw [h.tick, Nat.add_assoc, Nat.add_comm tickIntervalNs, ← Nat.succ_mul] at hk ⊢
  exact hfit (k + 1) hk

/-! ## The occurrences of a recurring timer -/

/-- From `c` on the tick first visits bucket `b` at `c'`. -/
def FirstVisit (w : TimerWheel C) (now c b c' : Nat) : Prop :=
  ∃ k, c' = c + k * tickIntervalNs ∧ c' ≤ now ∧ w.bucketOf c' = b ∧
    ∀ j < k, w.bucketOf (c + j * tickIntervalNs) ≠ b

/-- In a tick to `now` a recurring timer with interval `i` fires at the visit
at `c`. -/
inductive FiresAt (w : TimerWheel C) (now : Nat) : Nat → Nat → Prop
  | start {b c i : Nat} {node : TimerNode C} (mem : node ∈ w.wheels_ b)
      (recurs : interval node = some i) (due : node.expireTime ≤ now)
      (visit : FirstVisit w now w.current_tick_ b c) : FiresAt w now c i
  | next {c c' i : Nat} (fires : FiresAt w now c i) (due : wrap (c + i) ≤ now)
      (visit : FirstVisit w now c (w.bucketOf (wrap (c + i))) c') : FiresAt w now c' i

/-- Some recurring timer that fires in a tick to `now` is due again at once, in
the bucket being walked. -/
def RearmsDuring (w : TimerWheel C) (now : Nat) : Prop :=
  ∃ c i, FiresAt w now c i ∧ wrap (c + i) ≤ now ∧ w.bucketOf (wrap (c + i)) = w.bucketOf c

theorem FirstVisit.here (hle : c ≤ now) : FirstVisit w now c (w.bucketOf c) c :=
  ⟨0, by simp, hle, rfl, by simp⟩

theorem FirstVisit.eq_here (h : FirstVisit w now c (w.bucketOf c) c') : c' = c := by
  have ⟨k, hc', _, _, hbefore⟩ := h
  cases k with
  | zero => simpa using hc'
  | succ k => exact (hbefore 0 (by omega) (by simp)).elim

theorem FirstVisit.le (h : FirstVisit w now c b c') : c ≤ c' := by
  have ⟨k, hc', _⟩ := h
  omega

theorem firstVisit_shift (hb : b ≠ w.bucketOf c) :
    FirstVisit w now c b c' ↔ FirstVisit w now (c + tickIntervalNs) b c' := by
  constructor
  · intro ⟨k, hc', hle, hbucket, hbefore⟩
    cases k with
    | zero =>
        rw [hc', Nat.zero_mul, Nat.add_zero] at hbucket
        exact (hb hbucket.symm).elim
    | succ k =>
        refine ⟨k, by rw [hc', Nat.succ_mul]; omega, hle, hbucket, ?_⟩
        intro j hj
        have hne := hbefore (j + 1) (by omega)
        rwa [Nat.succ_mul, Nat.add_comm (j * _), ← Nat.add_assoc] at hne
  · intro ⟨k, hc', hle, hbucket, hbefore⟩
    refine ⟨k + 1, by rw [hc', Nat.succ_mul]; omega, hle, hbucket, ?_⟩
    intro j hj
    cases j with
    | zero => simpa using hb.symm
    | succ j =>
        have hne := hbefore j (by omega)
        rwa [Nat.succ_mul, Nat.add_comm (j * _), ← Nat.add_assoc]

theorem Visit.firstVisit_iff (h : Visit w now w') :
    FirstVisit w' now c b c' ↔ FirstVisit w now c b c' := by
  simp only [FirstVisit, h.bucketOf_eq]

theorem FiresAt.ge (h : FiresAt w now c i) : w.current_tick_ ≤ c := by
  induction h with
  | start _ _ _ visit => exact visit.le
  | next _ _ visit ih => exact Nat.le_trans ih visit.le

theorem FiresAt.le (h : FiresAt w now c i) : c ≤ now := by
  cases h with
  | start _ _ _ visit =>
      have ⟨_, _, hle, _⟩ := visit
      exact hle
  | next _ _ visit =>
      have ⟨_, _, hle, _⟩ := visit
      exact hle

/-- What fires at the current visit is due in the current bucket. -/
theorem FiresAt.dueHere (h : FiresAt w now c i) (hc : c = w.current_tick_) :
    DueHere w now i := by
  induction h with
  | start mem recurs due visit =>
      have ⟨_, _, _, hbucket, _⟩ := visit
      rw [hc] at hbucket
      rw [← hbucket] at mem
      exact ⟨_, mem, due, recurs⟩
  | next fires _ visit ih =>
      have hle := visit.le
      have hge := fires.ge
      exact ih (by omega)

theorem DueHere.firesAt (h : DueHere w now i) (hle : w.current_tick_ ≤ now) :
    FiresAt w now w.current_tick_ i := by
  have ⟨node, hmem, hdue, hi⟩ := h
  exact .start hmem hi hdue (FirstVisit.here hle)

section Visit

variable (h : Visit w now w')

include h

theorem Visit.firesAt_of_firesAt (hf : FiresAt w' now c i) : FiresAt w now c i := by
  induction hf with
  | @start b c i node mem recurs due visit =>
      -- what is still due lies in another bucket
      have hb : b ≠ w.bucketOf w.current_tick_ := by
        intro heq
        rw [heq] at mem
        exact h.passed node mem due
      rw [h.firstVisit_iff, h.tick, ← firstVisit_shift hb] at visit
      rcases h.origin b node mem with hold | ⟨i', hdue', hi', htime, hbucket⟩
      · exact .start hold recurs due visit
      · obtain rfl : i = i' := Option.some.inj (recurs.symm.trans hi')
        rw [htime] at due
        rw [← hbucket] at visit
        exact .next (hdue'.firesAt h.reached) due visit
  | next _ due visit ih =>
      rw [h.firstVisit_iff, h.bucketOf_eq] at visit
      exact .next ih due visit

theorem Visit.firesAt_later (hno : ∀ i, DueHere w now i → ¬ Rearms w now i)
    (hf : FiresAt w now c i) (hc : c ≠ w.current_tick_) : FiresAt w' now c i := by
  induction hf with
  | @start b c i node mem recurs due visit =>
      have hb : b ≠ w.bucketOf w.current_tick_ := by
        intro heq
        rw [heq] at visit
        exact hc visit.eq_here
      rw [firstVisit_shift hb, ← h.tick, ← h.firstVisit_iff] at visit
      exact .start (h.kept b node mem (.inl hb)) recurs due visit
  | @next c c' i fires due visit ih =>
      by_cases hcur : c = w.current_tick_
      · -- the occurrence that the current visit brought about
        subst hcur
        have hdue := fires.dueHere rfl
        have hb : w.bucketOf (w.nextTime i) ≠ w.bucketOf w.current_tick_ :=
          fun heq => hno i hdue ⟨due, heq⟩
        have ⟨node, hmem, hi, htime⟩ := h.next i hdue hb
        have hvisit := (firstVisit_shift hb).mp visit
        rw [← h.tick, ← h.firstVisit_iff] at hvisit
        exact .start hmem hi (by rw [htime]; exact due) hvisit
      · rw [← h.bucketOf_eq, ← h.firstVisit_iff] at visit
        exact .next (ih hcur) due visit

theorem Visit.rearmsDuring (hr : RearmsDuring w' now) : RearmsDuring w now := by
  have ⟨c, i, hf, hdue, hb⟩ := hr
  rw [h.bucketOf_eq, h.bucketOf_eq] at hb
  exact ⟨c, i, h.firesAt_of_firesAt hf, hdue, hb⟩

theorem Visit.rearmsLater (hno : ∀ i, DueHere w now i → ¬ Rearms w now i)
    (hr : RearmsDuring w now) : RearmsDuring w' now := by
  have ⟨c, i, hf, hdue, hb⟩ := hr
  refine ⟨c, i, h.firesAt_later hno hf ?_, hdue, by rw [h.bucketOf_eq, h.bucketOf_eq, hb]⟩
  intro hc
  subst hc
  exact hno i (hf.dueHere rfl) ⟨hdue, hb⟩

end Visit

/-! ## Whether the tick returns -/

theorem tickBody_returns (hno : ¬ RearmsDuring s.wheel now) :
    ∃ n x, tickBody n now s = some x := by
  by_cases hle : s.wheel.current_tick_ ≤ now
  · have hquiet : ∀ i, DueHere s.wheel now i → ¬ Rearms s.wheel now i :=
      fun i hi hre => hno ⟨_, i, hi.firesAt hle, hre⟩
    have ⟨n, t, ht⟩ := bucket_returns hquiet s.expiredCount s.fired
    exact ⟨n, .inl t.advance, by rw [tickBody_reached hle, ht]; rfl⟩
  · exact ⟨0, .inr s, tickBody_past hle⟩

theorem tick_returns (hfit : NoOverflow w now) (hno : ¬ RearmsDuring w now) :
    ∃ n r, w.tick n now = some r := by
  refine Loop.exists_run_of_measure
    (fun s => NoOverflow s.wheel now ∧ ¬ RearmsDuring s.wheel now)
    (fun s => now + 1 - s.wheel.current_tick_)
    (fun n m s x hnm => tickBody_mono hnm) ?_ ⟨hfit, hno⟩
  intro s ⟨hfit, hno⟩
  have ⟨n, x, hx⟩ := tickBody_returns hno
  refine ⟨n, x, hx, ?_⟩
  intro s' heq
  subst heq
  have hv := visit_of_tickBody hfit hx
  refine ⟨⟨hv.noOverflow hfit, fun hr => hno (hv.rearmsDuring hr)⟩, ?_⟩
  have hreached := hv.reached
  have hpos : 0 < tickIntervalNs := by decide
  rw [hv.tick]
  omega

theorem tickBody_rearms (hfit : NoOverflow s.wheel now) (hr : RearmsDuring s.wheel now) :
    tickBody n now s = none ∨ ∃ s', tickBody n now s = some (.inl s') ∧
      NoOverflow s'.wheel now ∧ RearmsDuring s'.wheel now := by
  have ⟨c, i, hf, _⟩ := hr
  have hle : s.wheel.current_tick_ ≤ now := Nat.le_trans hf.ge hf.le
  by_cases hquiet : ∀ i, DueHere s.wheel now i → ¬ Rearms s.wheel now i
  · cases hb : tickBody n now s with
    | none => exact .inl rfl
    | some x =>
        cases x with
        | inl s' =>
            have hv := visit_of_tickBody hfit hb
            exact .inr ⟨s', rfl, hv.noOverflow hfit, hv.rearmsLater hquiet hr⟩
        | inr s' => exact ((tickBody_leave hb).2 hle).elim
  · left
    push Not at hquiet
    have ⟨i, hdue, hre⟩ := hquiet
    rw [tickBody_reached hle, bucket_hangs hdue hre s.expiredCount s.fired n]
    rfl

theorem tick_hangs (hfit : NoOverflow w now) (hr : RearmsDuring w now) :
    w.tick n now = none :=
  Loop.hangs_of_invariant (fun s => NoOverflow s.wheel now ∧ RearmsDuring s.wheel now)
    (fun _ ⟨hfit, hr⟩ => tickBody_rearms hfit hr) ⟨hfit, hr⟩ n

theorem exists_tick_iff (hfit : NoOverflow w now) :
    (∃ n r, w.tick n now = some r) ↔ ¬ RearmsDuring w now := by
  constructor
  · intro ⟨n, r, hr⟩ hre
    rw [tick_hangs hfit hre] at hr
    cases hr
  · exact tick_returns hfit

end UltraHft.Core.TimerWheel
