import UltraHft.Core.Proofs.TimerWheel.Calls

/-!
# One-shot timers fire in time

`current_tick_` runs ahead to the end of the millisecond in which a tick lies,
and the bucket of that millisecond is not visited again for a whole rotation.  A
timer that expires later in the same millisecond is left behind there: the tick
*cuts* it.  As long as no tick of a run cuts a timer, every pending timer lies
ahead of `current_tick_`, and the next tick fires all that are due.
-/

namespace UltraHft.Core.TimerWheel

open UltraHft.Lib

variable {C : Type*} {w w' : TimerWheel C} {now n d b : Nat} {s s' r : Ticking C}
  {node : TimerNode C} {calls pre : List (WheelCall C)}

/-- The next tick, at time `now`, returns and leaves no due timer behind. -/
def Timely (w : TimerWheel C) (now : Nat) : Prop :=
  ∃ w', w.step (.tick now) = some w' ∧ ∀ node, w'.Pending node → ¬ node.expireTime ≤ now

/-- A pending timer expires after `now`, but in the same millisecond. -/
def Cuts (w : TimerWheel C) (now : Nat) : Prop :=
  ∃ node, w.Pending node ∧ now < node.expireTime ∧
    node.expireTime / tickIntervalNs = now / tickIntervalNs

/-- A call of a run of one-shot timers, with no time that overflows. -/
def OneShot (w : TimerWheel C) : WheelCall C → Prop
  | .schedule durationNs _ => w.current_tick_ + durationNs < 2 ^ 64
  | .cancel _ => True
  | .tick now => w.NoOverflow now
  | _ => False

def tickTime : WheelCall C → Option Nat
  | .tick now => some now
  | _ => none

def NonDecreasing (calls : List (WheelCall C)) : Prop :=
  (calls.filterMap tickTime).Pairwise (· ≤ ·)

theorem NonDecreasing.le (h : NonDecreasing calls) (hpre : pre ++ [.tick now] <+: calls)
    {earlier : Nat} (hmem : .tick earlier ∈ pre) : earlier ≤ now := by
  have hpre' := h.sublist (hpre.sublist.filterMap tickTime)
  rw [List.filterMap_append, List.pairwise_append] at hpre'
  exact hpre'.2.2 earlier (List.mem_filterMap.mpr ⟨_, hmem, rfl⟩) now (by simp [tickTime])

/-! ## A tick over one-shot timers -/

def Plain (w : TimerWheel C) : Prop := ∀ b, ∀ node ∈ w.wheels_ b, interval node = none

theorem Plain.not_dueHere (h : Plain w) {i : Nat} : ¬ DueHere w now i := by
  intro ⟨node, hmem, _, hi⟩
  rw [h _ node hmem] at hi
  cases hi

theorem Plain.not_firesAt (h : Plain w) {c i : Nat} : ¬ FiresAt w now c i := by
  intro hf
  induction hf with
  | start mem recurs _ _ =>
      rw [h _ _ mem] at recurs
      cases recurs
  | next _ _ _ ih => exact ih

theorem Plain.not_rearmsDuring (h : Plain w) : ¬ RearmsDuring w now :=
  fun ⟨_, _, hf, _⟩ => h.not_firesAt hf

/-- A tick to `now` that began with the wheel `w` has made `k` visits. -/
structure Sweep (w : TimerWheel C) (now : Nat) (s : Ticking C) (k : Nat) : Prop where
  fits : NoOverflow s.wheel now
  size : s.wheel.wheel_size_ = w.wheel_size_
  tick : s.wheel.current_tick_ = w.current_tick_ + k * tickIntervalNs
  reached : ∀ j < k, w.current_tick_ + j * tickIntervalNs ≤ now
  subset : ∀ b, ∀ node ∈ s.wheel.wheels_ b, node ∈ w.wheels_ b
  swept : ∀ j < k, ∀ node ∈ s.wheel.wheels_ (w.bucketOf (w.current_tick_ + j * tickIntervalNs)),
    ¬ node.expireTime ≤ now
  kept : ∀ b, ∀ node ∈ w.wheels_ b, ¬ node.expireTime ≤ now → node ∈ s.wheel.wheels_ b

theorem Sweep.start (hfit : NoOverflow w now) (count : Nat) (fired : List (TimerNode C)) :
    Sweep w now ⟨w, count, fired⟩ 0 where
  fits := hfit
  size := rfl
  tick := by simp
  reached := by simp
  subset := fun _ _ h => h
  swept := by simp
  kept := fun _ _ h _ => h

theorem Sweep.visit {k : Nat} (h : Sweep w now s k) (hplain : Plain w)
    (hv : Visit s.wheel now s'.wheel) : Sweep w now s' (k + 1) := by
  have hquiet : ∀ i, ¬ DueHere s.wheel now i :=
    fun i => Plain.not_dueHere fun b node hnode => hplain b node (h.subset b node hnode)
  have hback : ∀ b, ∀ node ∈ s'.wheel.wheels_ b, node ∈ s.wheel.wheels_ b := by
    intro b node hnode
    rcases hv.origin b node hnode with hold | ⟨i, hi, _⟩
    · exact hold
    · exact (hquiet i hi).elim
  have hhere : s.wheel.currentBucket = w.bucketOf (w.current_tick_ + k * tickIntervalNs) := by
    rw [currentBucket, h.tick, bucketOf, bucketOf, h.size]
  constructor
  case fits => exact hv.noOverflow h.fits
  case size => rw [hv.size, h.size]
  case tick => rw [hv.tick, h.tick, Nat.succ_mul, Nat.add_assoc]
  case reached =>
    intro j hj
    rcases Nat.lt_succ_iff_lt_or_eq.mp hj with hj | rfl
    · exact h.reached j hj
    · rw [← h.tick]
      exact hv.reached
  case subset => exact fun b node hnode => h.subset b node (hback b node hnode)
  case swept =>
    intro j hj node hnode
    rcases Nat.lt_succ_iff_lt_or_eq.mp hj with hj | rfl
    · exact h.swept j hj node (hback _ node hnode)
    · rw [← hhere] at hnode
      exact hv.passed node hnode
  case kept => exact fun b node hnode hnd => hv.kept b node (h.kept b node hnode hnd) (.inr hnd)

theorem tick_sweeps (hfit : NoOverflow w now) (hplain : Plain w)
    (h : w.tick n now = some r) : (∃ k, Sweep w now r k) ∧ now < r.wheel.current_tick_ := by
  apply Loop.run_invariant (fun s => ∃ k, Sweep w now s k)
    (fun s => (∃ k, Sweep w now s k) ∧ now < s.wheel.current_tick_) ?_ ?_
    ⟨0, Sweep.start hfit 0 []⟩ h
  · intro s s' ⟨k, hs⟩ hstep
    exact ⟨k + 1, hs.visit hplain (visit_of_tickBody hs.fits hstep)⟩
  · intro s s' hs hstep
    have ⟨heq, hle⟩ := tickBody_leave hstep
    rw [heq]
    exact ⟨hs, by omega⟩

/-! ## The invariant -/

/-- Every timer is a one-shot timer in the bucket of its time. -/
structure Stored (w : TimerWheel C) : Prop where
  plain : Plain w
  placed : ∀ b, ∀ node ∈ w.wheels_ b, w.bucketOf node.expireTime = b

/-- Every pending timer is a one-shot timer in the bucket of its time and lies
ahead of `current_tick_`. -/
structure Fresh (w : TimerWheel C) : Prop where
  plain : Plain w
  placed : ∀ b, ∀ node ∈ w.wheels_ b, w.bucketOf node.expireTime = b
  ahead : ∀ b, ∀ node ∈ w.wheels_ b, w.current_tick_ ≤ node.expireTime
  aligned : tickIntervalNs ∣ w.current_tick_

theorem Fresh.stored (h : Fresh w) : Stored w := ⟨h.plain, h.placed⟩

theorem fresh_new (size : Nat) (hsize : 0 < size) : Fresh (new C size hsize) where
  plain := by simp [Plain, new]
  placed := by simp [new]
  ahead := by simp [new]
  aligned := Nat.dvd_zero _

theorem mem_emplace {callback : Callback C} {expireTime : Nat}
    (h : node ∈ (w.emplace expireTime callback).2.wheels_ b) :
    node ∈ w.wheels_ b ∨
      (b = w.bucketOf expireTime ∧ node = ⟨w.next_timer_id_, expireTime, callback⟩) := by
  simp only [emplace] at h
  by_cases hb : b = w.bucketOf expireTime
  · subst hb
    rw [Function.update_self, List.mem_append, List.mem_singleton] at h
    exact h.imp_right fun h => ⟨rfl, h⟩
  · rw [Function.update_of_ne hb] at h
    exact .inl h

theorem mem_cancel {timerId : Nat} (h : node ∈ (w.cancel timerId).2.wheels_ b) :
    node ∈ w.wheels_ b := by
  unfold cancel at h
  split at h
  · exact h
  case h_2 b' _ =>
    by_cases hb : b = b'
    · subst hb
      simp only [Function.update_self] at h
      exact List.eraseP_subset h
    · simp only [Function.update_of_ne hb] at h
      exact h

theorem cancel_tick (timerId : Nat) : (w.cancel timerId).2.current_tick_ = w.current_tick_ := by
  unfold cancel
  split <;> rfl

theorem cancel_size (timerId : Nat) : (w.cancel timerId).2.wheel_size_ = w.wheel_size_ := by
  unfold cancel
  split <;> rfl

theorem Stored.emplace (h : Stored w) (expireTime : Nat) (callback : C) :
    Stored (w.emplace expireTime (.user callback)).2 := by
  constructor
  · intro b node hnode
    rcases mem_emplace hnode with hold | ⟨_, rfl⟩
    · exact h.plain b node hold
    · rfl
  · intro b node hnode
    rcases mem_emplace hnode with hold | ⟨rfl, rfl⟩
    · exact h.placed b node hold
    · rfl

theorem Stored.cancel (h : Stored w) (timerId : Nat) : Stored (w.cancel timerId).2 := by
  constructor
  · exact fun b node hnode => h.plain b node (mem_cancel hnode)
  · intro b node hnode
    rw [bucketOf, cancel_size]
    exact h.placed b node (mem_cancel hnode)

theorem Fresh.schedule (h : Fresh w) (hd : w.current_tick_ + d < 2 ^ 64) (callback : C) :
    Fresh (w.schedule d callback).2 := by
  have htime : wrap (w.current_tick_ + d) = w.current_tick_ + d := Nat.mod_eq_of_lt hd
  have hstored : Stored (w.schedule d callback).2 := h.stored.emplace _ callback
  constructor
  case plain => exact hstored.plain
  case placed => exact hstored.placed
  case ahead =>
    intro b node hnode
    rw [TimerWheel.schedule, htime] at hnode
    rcases mem_emplace hnode with hold | ⟨_, rfl⟩
    · exact h.ahead b node hold
    · exact Nat.le_add_right _ _
  case aligned => exact h.aligned

theorem Fresh.cancel (h : Fresh w) (timerId : Nat) : Fresh (w.cancel timerId).2 := by
  have hstored : Stored (w.cancel timerId).2 := h.stored.cancel timerId
  constructor
  case plain => exact hstored.plain
  case placed => exact hstored.placed
  case ahead =>
    intro b node hnode
    rw [cancel_tick]
    exact h.ahead b node (mem_cancel hnode)
  case aligned =>
    rw [cancel_tick]
    exact h.aligned

section Tick

variable {k : Nat}

/-- The tick has visited the bucket of every timer that is due. -/
theorem Sweep.timely (hs : Sweep w now r k) (hpast : now < r.wheel.current_tick_) (h : Fresh w) :
    ∀ b, ∀ node ∈ r.wheel.wheels_ b, ¬ node.expireTime ≤ now := by
  intro b node hnode hdue
  have hold := hs.subset b node hnode
  have hahead := h.ahead b node hold
  have htick := hs.tick
  obtain ⟨q, hq⟩ := h.aligned
  -- the visit to the bucket in which the timer has been since it was scheduled
  have hj : ∃ j < k, (w.current_tick_ + j * tickIntervalNs) / tickIntervalNs =
      node.expireTime / tickIntervalNs := by
    refine ⟨(node.expireTime - w.current_tick_) / tickIntervalNs, ?_, ?_⟩
    all_goals
      simp only [tickIntervalNs] at *
      omega
  obtain ⟨j, hjk, hsame⟩ := hj
  have hbucket : w.bucketOf (w.current_tick_ + j * tickIntervalNs) = b := by
    rw [bucketOf, hsame]
    exact h.placed b node hold
  rw [← hbucket] at hnode
  exact hs.swept j hjk node hnode hdue

theorem Sweep.stored (hs : Sweep w now r k) (h : Stored w) : Stored r.wheel := by
  constructor
  · exact fun b node hnode => h.plain b node (hs.subset b node hnode)
  · intro b node hnode
    rw [bucketOf, hs.size]
    exact h.placed b node (hs.subset b node hnode)

theorem Sweep.fresh (hs : Sweep w now r k) (hpast : now < r.wheel.current_tick_) (h : Fresh w)
    (hcut : ¬ Cuts w now) : Fresh r.wheel := by
  have htick := hs.tick
  have hstored := hs.stored h.stored
  constructor
  case plain => exact hstored.plain
  case placed => exact hstored.placed
  case ahead =>
    intro b node hnode
    have hold := hs.subset b node hnode
    have hahead := h.ahead b node hold
    have hlate := hs.timely hpast h b node hnode
    have hpending : w.Pending node := by
      refine ⟨b, ?_, hold⟩
      rw [← h.placed b node hold]
      exact Nat.mod_lt _ w.size_pos
    -- the timer expires in a later millisecond than the last visit was for
    have hother : node.expireTime / tickIntervalNs ≠ now / tickIntervalNs :=
      fun heq => hcut ⟨node, hpending, by omega, heq⟩
    have hlast := hs.reached (k - 1)
    obtain ⟨q, hq⟩ := h.aligned
    simp only [tickIntervalNs] at *
    omega
  case aligned =>
    rw [htick]
    exact Nat.dvd_add h.aligned (Nat.dvd_mul_left ..)

theorem Sweep.lt_tick (hs : Sweep w now r k) (hpast : now < r.wheel.current_tick_)
    (h : Fresh w) {later : Nat} (hsame : later / tickIntervalNs = now / tickIntervalNs) :
    later < r.wheel.current_tick_ := by
  have htick := hs.tick
  have ⟨q, hq⟩ := h.aligned
  simp only [tickIntervalNs] at *
  omega

theorem Sweep.pending (hs : Sweep w now r k) (hnode : w.Pending node)
    (hlate : now < node.expireTime) : r.wheel.Pending node := by
  have ⟨b, hb, hmem⟩ := hnode
  exact ⟨b, by rw [hs.size]; exact hb, hs.kept b node hmem (by omega)⟩

end Tick

theorem Fresh.step_tick (h : Fresh w) (hfit : NoOverflow w now) :
    ∃ w', w.step (.tick now) = some w' ∧
      ∃ r k, r.wheel = w' ∧ Sweep w now r k ∧ now < r.wheel.current_tick_ := by
  have ⟨n, r, hr⟩ := tick_returns hfit h.plain.not_rearmsDuring
  have ⟨⟨k, hs⟩, hpast⟩ := tick_sweeps hfit h.plain hr
  exact ⟨r.wheel, step_tick_eq_some.mpr ⟨n, r, hr, rfl⟩, r, k, rfl, hs, hpast⟩

theorem Fresh.timely (h : Fresh w) (hfit : NoOverflow w now) : Timely w now := by
  have ⟨w', hstep, r, k, hr, hs, hpast⟩ := h.step_tick hfit
  refine ⟨w', hstep, ?_⟩
  intro node ⟨b, _, hnode⟩
  rw [← hr] at hnode
  exact hs.timely hpast h b node hnode

/-- A tick to a time before `current_tick_` does nothing. -/
theorem not_timely_of_pending (hnode : w.Pending node) (hdue : node.expireTime ≤ now)
    (hahead : now < w.current_tick_) : ¬ Timely w now := by
  intro ⟨w', hstep, hall⟩
  have ⟨n, r, hr, hw⟩ := step_tick_eq_some.mp hstep
  have hsame : r.wheel = w := by
    cases n with
    | zero => cases hr
    | succ n =>
        rw [tick, Loop.run_succ_leave (tickBody_past (by simpa using hahead))] at hr
        rw [← Option.some.inj hr]
  rw [← hw, hsame] at hall
  exact hall node hnode hdue

/-! ## Runs -/

/-- Every next tick is timely, at any time that does not go back. -/
def TimelyAfter (pre : List (WheelCall C)) (w : TimerWheel C) : Prop :=
  ∀ now, (∀ earlier, .tick earlier ∈ pre → earlier ≤ now) → NoOverflow w now → Timely w now

def NeverCuts (w : TimerWheel C) (calls : List (WheelCall C)) : Prop :=
  ∀ pre now, pre ++ [.tick now] <+: calls → ∀ v, Runs.exec step w pre = some v → ¬ v.Cuts now

theorem Fresh.step (h : Fresh w) (call : WheelCall C) (hcall : w.OneShot call)
    (hback : ∀ now, call = .tick now → ∀ earlier, .tick earlier ∈ pre → earlier ≤ now) :
    ∃ w', w.step call = some w' ∧ ((∀ now, call = .tick now → ¬ w.Cuts now) → Fresh w') ∧
      (¬ (∀ now, call = .tick now → ¬ w.Cuts now) → ¬ TimelyAfter (pre ++ [call]) w') := by
  cases call with
  | schedule durationNs callback =>
      exact ⟨_, rfl, fun _ => h.schedule hcall callback, fun hno => (hno (by simp)).elim⟩
  | scheduleAt absoluteTimeNs callback => exact hcall.elim
  | scheduleRecurring intervalNs callback => exact hcall.elim
  | cancel timerId => exact ⟨_, rfl, fun _ => h.cancel timerId, fun hno => (hno (by simp)).elim⟩
  | tick now =>
      have ⟨w', hstep, r, k, hr, hs, hpast⟩ := h.step_tick hcall
      subst hr
      refine ⟨r.wheel, hstep, fun hcut => hs.fresh hpast h (hcut now rfl), ?_⟩
      intro hcut htimely
      have hcuts : w.Cuts now := by simpa using hcut
      have ⟨node, hnode, hlate, hsame⟩ := hcuts
      have hahead := hs.lt_tick hpast h hsame
      -- a tick at the very time at which the timer expires comes too late
      refine not_timely_of_pending (hs.pending hnode hlate) (Nat.le_refl _) hahead
        (htimely node.expireTime ?_ ?_)
      · intro earlier hmem
        rcases List.mem_append.mp hmem with hmem | hmem
        · have hle := hback now rfl earlier hmem
          omega
        · have heq : earlier = now := by simpa using hmem
          omega
      · intro j hj
        omega

/-- **Throughout a run of one-shot timers the next tick fires every timer that
is due, exactly when no tick of the run cuts a pending timer.** -/
theorem timelyAfter_iff_neverCuts (size : Nat) (hsize : 0 < size) (calls : List (WheelCall C))
    (honce : ∀ pre call, pre ++ [call] <+: calls →
      ∀ w, Runs.exec step (new C size hsize) pre = some w → w.OneShot call)
    (hticks : NonDecreasing calls) :
    (∀ pre, pre <+: calls →
      ∃ w, Runs.exec step (new C size hsize) pre = some w ∧ TimelyAfter pre w) ↔
        NeverCuts (new C size hsize) calls := by
  have hgood : (∀ pre, pre <+: calls →
      ∃ w, Runs.exec step (new C size hsize) pre = some w ∧ TimelyAfter pre w) ↔
        ∀ pre call, pre ++ [call] <+: calls →
          ∀ w, Runs.exec step (new C size hsize) pre = some w →
            ∀ now, call = .tick now → ¬ w.Cuts now := by
    apply Runs.exec_iff_good (fun _ w => Fresh w) TimelyAfter
      (fun (w : TimerWheel C) (call : WheelCall C) => ∀ now, call = .tick now → ¬ w.Cuts now)
      (fresh_new size hsize)
    · intro pre w _ _ hfresh now _ hfit
      exact hfresh.timely hfit
    · intro pre call w hpre hexec hfresh
      apply hfresh.step call (honce pre call hpre w hexec)
      intro now hcall earlier hmem
      subst hcall
      exact hticks.le hpre hmem
  rw [hgood]
  constructor
  · intro h pre now hpre w hw
    exact h pre (.tick now) hpre w hw now rfl
  · intro h pre call hpre w hw now hcall
    subst hcall
    exact h pre now hpre w hw

def cutTimer : List (WheelCall Unit) := [.schedule 500000 (), .tick 0, .tick 600000]

theorem cutTimer_oneShot (pre : List (WheelCall Unit)) (call : WheelCall Unit)
    (hpre : pre ++ [call] <+: cutTimer) (w : TimerWheel Unit)
    (hw : Runs.exec step (new Unit defaultWheelSize (by decide)) pre = some w) :
    w.OneShot call := by
  cases pre with
  | nil =>
      obtain rfl : call = .schedule 500000 () := by simpa [cutTimer] using hpre
      rw [← Option.some.inj hw]
      change 0 + 500000 < 2 ^ 64
      omega
  | cons first rest =>
      have hcall : call ∈ ([.tick 0, .tick 600000] : List (WheelCall Unit)) := by
        rw [cutTimer, List.cons_append, List.cons_prefix_cons] at hpre
        exact hpre.2.subset (by simp)
      simp only [List.mem_cons, List.not_mem_nil, or_false] at hcall
      rcases hcall with rfl | rfl
      · exact noOverflow_of_lt (by decide)
      · exact noOverflow_of_lt (by decide)

theorem cutTimer_nonDecreasing : NonDecreasing cutTimer := by
  change List.Pairwise (· ≤ ·) [0, 600000]
  simp

theorem timelyAfter_iff_neverCuts_cutTimer :
    (∀ pre, pre <+: cutTimer → ∃ w, Runs.exec step (new Unit defaultWheelSize (by decide)) pre =
      some w ∧ TimelyAfter pre w) ↔ NeverCuts (new Unit defaultWheelSize (by decide)) cutTimer :=
  timelyAfter_iff_neverCuts defaultWheelSize (by decide) cutTimer cutTimer_oneShot
    cutTimer_nonDecreasing

/-- The first tick cuts the timer, and the second one passes it by. -/
theorem cutTimer_passedBy :
    ¬ ∀ calls : List (WheelCall Unit),
      (∀ pre call, pre ++ [call] <+: calls → ∀ w,
        Runs.exec step (new Unit defaultWheelSize (by decide)) pre = some w → w.OneShot call) →
      NonDecreasing calls →
      ∀ pre now, pre ++ [.tick now] <+: calls → ∀ w,
        Runs.exec step (new Unit defaultWheelSize (by decide)) pre = some w → Timely w now := by
  intro hall
  have hfresh := (fresh_new (C := Unit) defaultWheelSize (by decide)).schedule
    (d := 500000) (by decide) ()
  have ⟨w', hstep, r, k, hr, hs, hpast⟩ := hfresh.step_tick
    (noOverflow_of_lt (show 0 + tickIntervalNs < 2 ^ 64 by decide))
  have hmem : (⟨1, 500000, .user ()⟩ : TimerNode Unit) ∈
      ((new Unit defaultWheelSize (by decide)).schedule 500000 ()).2.wheels_ 0 := by decide
  have hpending := hs.pending ⟨0, by decide, hmem⟩ (by decide)
  have hahead : 600000 < r.wheel.current_tick_ := hs.lt_tick hpast hfresh (by decide)
  rw [hr] at hpending hahead
  have htimely := hall cutTimer cutTimer_oneShot cutTimer_nonDecreasing
    [.schedule 500000 (), .tick 0] 600000 (by simp [cutTimer]) w'
    (by rw [Runs.exec, step, Option.bind_some, Runs.exec, hstep]; rfl)
  exact not_timely_of_pending hpending (by decide) hahead htimely

end UltraHft.Core.TimerWheel
