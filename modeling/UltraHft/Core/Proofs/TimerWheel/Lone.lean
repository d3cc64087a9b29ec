import Mathlib.Data.Nat.ModEq
import UltraHft.Core.Proofs.TimerWheel.Tick

/-!
# A wheel with one recurring timer

Such a wheel is described by two times, its own and the next one of the timer.
A visit of a tick either leaves the timer alone or makes it fire, and then the
next time is counted from the visit and not from the time that was due.  So what
a tick does to the wheel follows from arithmetic on the two times and the number
of callbacks that have run.
-/

namespace UltraHft.Core.TimerWheel

open UltraHft.Lib

variable {C : Type*} {w : TimerWheel C} {now n i m q c : Nat} {s s' r : Ticking C}
  {node : TimerNode C}

/-- The time in which the wheel visits each bucket once. -/
def rotation (w : TimerWheel C) : Nat := w.wheel_size_ * tickIntervalNs

theorem rotation_pos : 0 < w.rotation := Nat.mul_pos w.size_pos (by decide)

theorem dvd_rotation : tickIntervalNs ∣ w.rotation := Nat.dvd_mul_left ..

/-- Whole milliseconds share a bucket when they are whole rotations apart. -/
theorem bucketOf_eq_iff (hc : tickIntervalNs ∣ c) (hm : tickIntervalNs ∣ m) :
    w.bucketOf c = w.bucketOf m ↔ c ≡ m [MOD w.rotation] := by
  obtain ⟨a, rfl⟩ := hc
  obtain ⟨b, rfl⟩ := hm
  have hpos : 0 < tickIntervalNs := by decide
  unfold bucketOf rotation
  rw [Nat.mul_div_cancel_left a hpos, Nat.mul_div_cancel_left b hpos, Nat.mul_comm w.wheel_size_]
  exact (Nat.ModEq.mul_left_cancel_iff' hpos.ne').symm

/-- The wheel holds one node, of a recurring timer that is to fire at `m`. -/
structure Lone (w : TimerWheel C) (i m : Nat) : Prop where
  here : ∃ node, w.wheels_ (w.bucketOf m) = [node] ∧ node.expireTime = m ∧ interval node = some i
  elsewhere : ∀ b, b ≠ w.bucketOf m → w.wheels_ b = []

/-- A visit at `c` finds a timer for `m` due. -/
def DueAt (w : TimerWheel C) (now c m : Nat) : Prop := w.bucketOf c = w.bucketOf m ∧ m ≤ now

theorem lone_scheduleRecurring (size : Nat) (hsize : 0 < size) (hi : i < 2 ^ 64) (callback : C) :
    Lone ((new C size hsize).scheduleRecurring i callback).2 i i := by
  have hwrap : wrap (0 + i) = i := by
    rw [Nat.zero_add]
    exact Nat.mod_eq_of_lt hi
  constructor
  case here =>
    refine ⟨⟨1, wrap (0 + i), .recurring 1 i callback⟩, ?_, hwrap, rfl⟩
    change Function.update _ _ _ _ = _
    rw [show (new C size hsize).current_tick_ = 0 from rfl, hwrap]
    exact Function.update_self ..
  case elsewhere =>
    intro b hb
    change Function.update _ _ _ _ = _
    rw [show (new C size hsize).current_tick_ = 0 from rfl, hwrap]
    exact Function.update_of_ne hb ..

theorem Lone.advance (h : Lone s.wheel i m) : Lone s.advance.wheel i m := by
  have hbucket : s.advance.wheel.bucketOf m = s.wheel.bucketOf m := by
    rw [bucketOf, bucketOf, advance_size]
  constructor
  case here =>
    rw [hbucket, advance_wheels]
    exact h.here
  case elsewhere =>
    rw [hbucket, advance_wheels]
    exact h.elsewhere

/-! ## One visit -/

theorem Lone.tickBody_quiet (h : Lone s.wheel i m) (hle : s.wheel.current_tick_ ≤ now)
    (hquiet : ¬ DueAt s.wheel now s.wheel.current_tick_ m) :
    tickBody 3 now s = some (.inl s.advance) := by
  have hwalk : Loop.run (bucketBody now s.wheel.currentBucket) 3 (s, 0) = some s := by
    by_cases hb : s.wheel.currentBucket = s.wheel.bucketOf m
    · obtain ⟨node, hl, htime, _⟩ := h.here
      rw [← hb] at hl
      have hlate : ¬ node.expireTime ≤ now := by
        rw [htime]
        exact fun hdue => hquiet ⟨hb, hdue⟩
      have hsplit : s.wheel.wheels_ s.wheel.currentBucket = [] ++ node :: [] := hl
      have hskip : bucketBody now s.wheel.currentBucket (s, 0) = some (.inl (s, 1)) :=
        bucketBody_skip hsplit hlate
      have hend : bucketBody now s.wheel.currentBucket (s, 1) = some (.inr s) :=
        bucketBody_end hl
      rw [Loop.run_succ_next hskip, Loop.run_succ_leave hend]
    · have hend : bucketBody now s.wheel.currentBucket (s, 0) = some (.inr s) :=
        bucketBody_end (h.elsewhere _ hb)
      exact Loop.run_succ_leave hend
  rw [tickBody_reached hle, hwalk]
  rfl

theorem spawn_eq_nil_or (node : TimerNode C) (b : Nat) :
    w.spawn node b = [] ∨ ∃ child, w.spawn node b = [child] := by
  have hlen : (w.spawn node b).length ≤ 1 := length_spawn_le
  cases hl : w.spawn node b with
  | nil => exact .inl rfl
  | cons child l =>
      rw [hl, List.length_cons] at hlen
      have hnil : l = [] := List.eq_nil_of_length_eq_zero (by omega)
      exact .inr ⟨child, by rw [hnil]⟩

theorem walk_fire (hl : s.wheel.wheels_ s.wheel.currentBucket = [node])
    (hi : interval node = some i) (hdue : node.expireTime ≤ now) (hno : ¬ Rearms s.wheel now i) :
    Loop.run (bucketBody now s.wheel.currentBucket) 3 (s, 0) =
      some (fireAt s s.wheel.currentBucket 0 node) := by
  have hsplit : s.wheel.wheels_ s.wheel.currentBucket = [] ++ node :: [] := hl
  have hfire : bucketBody now s.wheel.currentBucket (s, 0) =
      some (.inl (fireAt s s.wheel.currentBucket 0 node, 0)) := bucketBody_due hsplit hdue
  have hrest : (fireAt s s.wheel.currentBucket 0 node).wheel.wheels_ s.wheel.currentBucket =
      s.wheel.spawn node s.wheel.currentBucket := fireAt_here hsplit
  rw [Loop.run_succ_next hfire]
  rcases spawn_eq_nil_or node s.wheel.currentBucket with hnil | ⟨child, hchild⟩
  · rw [hnil] at hrest
    have hend : bucketBody now s.wheel.currentBucket
        (fireAt s s.wheel.currentBucket 0 node, 0) = some (.inr _) := bucketBody_end hrest
    exact Loop.run_succ_leave hend
  · rw [hchild] at hrest
    have hlate : ¬ child.expireTime ≤ now := by
      intro hle
      have hmem : child ∈ s.wheel.spawn node s.wheel.currentBucket := by simp [hchild]
      obtain ⟨i', hi', _, htime, hb⟩ := mem_spawn hmem
      obtain rfl : i = i' := Option.some.inj (hi.symm.trans hi')
      exact hno ⟨htime ▸ hle, hb⟩
    have hsplit' : (fireAt s s.wheel.currentBucket 0 node).wheel.wheels_ s.wheel.currentBucket =
        [] ++ child :: [] := hrest
    have hskip : bucketBody now s.wheel.currentBucket
        (fireAt s s.wheel.currentBucket 0 node, 0) =
          some (.inl (fireAt s s.wheel.currentBucket 0 node, 1)) := bucketBody_skip hsplit' hlate
    have hend : bucketBody now s.wheel.currentBucket
        (fireAt s s.wheel.currentBucket 0 node, 1) = some (.inr _) := bucketBody_end hrest
    rw [Loop.run_succ_next hskip, Loop.run_succ_leave hend]

/-- A firing leaves one node, for an interval after the visit. -/
theorem Lone.fireAt (h : Lone s.wheel i m) (hb : s.wheel.currentBucket = s.wheel.bucketOf m)
    (hl : s.wheel.wheels_ s.wheel.currentBucket = [node]) (hi : interval node = some i) :
    Lone (fireAt s s.wheel.currentBucket 0 node).wheel i (s.wheel.nextTime i) := by
  have hleft : ∀ b, (TimerWheel.fireAt s s.wheel.currentBucket 0 node).wheel.wheels_ b =
      s.wheel.spawn node b := by
    intro b
    by_cases hcur : b = s.wheel.currentBucket
    · rw [hcur]
      have hsplit : s.wheel.wheels_ s.wheel.currentBucket = [] ++ node :: [] := hl
      exact fireAt_here hsplit
    · rw [fireAt_elsewhere hcur, h.elsewhere b (hb ▸ hcur), List.nil_append]
  have hbucket : (TimerWheel.fireAt s s.wheel.currentBucket 0 node).wheel.bucketOf
      (s.wheel.nextTime i) = s.wheel.bucketOf (s.wheel.nextTime i) := by
    rw [bucketOf, bucketOf, fireAt_size]
  constructor
  case here =>
    rw [hbucket, hleft]
    obtain ⟨child, hchild, hci, htime⟩ := exists_mem_spawn (w := s.wheel) hi
    rcases spawn_eq_nil_or node (s.wheel.bucketOf (s.wheel.nextTime i)) with hnil | ⟨c, hc⟩
    · rw [hnil] at hchild
      cases hchild
    · rw [hc, List.mem_singleton] at hchild
      rw [hc, ← hchild]
      exact ⟨child, rfl, htime, hci⟩
  case elsewhere =>
    intro b hne
    rw [hbucket] at hne
    rw [hleft]
    rcases spawn_eq_nil_or node b with hnil | ⟨child, hchild⟩
    · exact hnil
    · have hmem : child ∈ s.wheel.spawn node b := by simp [hchild]
      obtain ⟨i', hi', _, _, hin⟩ := mem_spawn hmem
      obtain rfl : i = i' := Option.some.inj (hi.symm.trans hi')
      exact (hne hin.symm).elim

theorem Lone.dueHere (h : Lone w i m) (hdue : DueAt w now w.current_tick_ m) :
    DueHere w now i := by
  obtain ⟨node, hl, htime, hi⟩ := h.here
  rw [← hdue.1] at hl
  refine ⟨node, ?_, htime ▸ hdue.2, hi⟩
  rw [currentBucket, hl]
  exact List.mem_singleton_self node

/-- Where the timer is due, it fires; the visit ends unless the timer rearms. -/
theorem Lone.tickBody_due (h : Lone s.wheel i m) (hle : s.wheel.current_tick_ ≤ now)
    (hdue : DueAt s.wheel now s.wheel.current_tick_ m) (hno : ¬ Rearms s.wheel now i) :
    ∃ s', tickBody 3 now s = some (.inl s') ∧ Lone s'.wheel i (s.wheel.nextTime i) ∧
      s'.fired.length = s.fired.length + 1 := by
  obtain ⟨node, hl, htime, hi⟩ := h.here
  have hb : s.wheel.currentBucket = s.wheel.bucketOf m := hdue.1
  rw [← hb] at hl
  refine ⟨(TimerWheel.fireAt s s.wheel.currentBucket 0 node).advance, ?_, ?_, ?_⟩
  · rw [tickBody_reached hle, walk_fire hl hi (htime ▸ hdue.2) hno]
    rfl
  · exact (h.fireAt hb hl hi).advance
  · exact List.length_append

theorem tickBody_unique {x y : Ticking C ⊕ Ticking C} {k : Nat} (hx : tickBody n now s = some x)
    (hy : tickBody k now s = some y) : x = y := by
  have hx' := tickBody_mono (Nat.le_max_left n k) hx
  have hy' := tickBody_mono (Nat.le_max_right n k) hy
  exact Option.some.inj (hx'.symm.trans hy')

theorem Lone.visit_cases (h : Lone s.wheel i m) (hb : tickBody n now s = some (.inl s')) :
    (¬ DueAt s.wheel now s.wheel.current_tick_ m ∧ Lone s'.wheel i m ∧
      s'.fired.length = s.fired.length) ∨
    (DueAt s.wheel now s.wheel.current_tick_ m ∧ Lone s'.wheel i (s.wheel.nextTime i) ∧
      s'.fired.length = s.fired.length + 1) := by
  have hle : s.wheel.current_tick_ ≤ now := by
    by_contra hpast
    rw [tickBody_past hpast] at hb
    cases hb
  by_cases hdue : DueAt s.wheel now s.wheel.current_tick_ m
  · right
    have hno : ¬ Rearms s.wheel now i := by
      intro hre
      rw [tickBody_reached hle, bucket_hangs (h.dueHere hdue) hre s.expiredCount s.fired n] at hb
      cases hb
    obtain ⟨t, ht, hlone, hfired⟩ := h.tickBody_due hle hdue hno
    obtain rfl : s' = t := Sum.inl.inj (tickBody_unique hb ht)
    exact ⟨hdue, hlone, hfired⟩
  · left
    obtain rfl : s' = s.advance := Sum.inl.inj (tickBody_unique hb (h.tickBody_quiet hle hdue))
    refine ⟨hdue, h.advance, ?_⟩
    rw [Ticking.advance]

/-! ## The whole tick -/

/-- The visits of a tick to `now` keep `P`, a predicate of the time of the wheel,
the next time of the timer and the number of callbacks run. -/
structure Kept (w : TimerWheel C) (now i : Nat) (P : Nat → Nat → Nat → Prop) : Prop where
  quiet : ∀ c m q, P c m q → c ≤ now → ¬ DueAt w now c m → P (c + tickIntervalNs) m q
  fire : ∀ c m q, P c m q → c ≤ now → DueAt w now c m →
    P (c + tickIntervalNs) (wrap (c + i)) (q + 1)

structure Tracked (w : TimerWheel C) (now i : Nat) (P : Nat → Nat → Nat → Prop)
    (s : Ticking C) (m : Nat) : Prop where
  size : s.wheel.wheel_size_ = w.wheel_size_
  fits : NoOverflow s.wheel now
  lone : Lone s.wheel i m
  holds : P s.wheel.current_tick_ m s.fired.length

variable {P : Nat → Nat → Nat → Prop}

theorem Tracked.dueAt_iff (h : Tracked w now i P s m) :
    DueAt s.wheel now c q ↔ DueAt w now c q := by
  rw [DueAt, DueAt, bucketOf, bucketOf, bucketOf, bucketOf, h.size]

theorem Tracked.visit (hkept : Kept w now i P) (h : Tracked w now i P s m)
    (hb : tickBody n now s = some (.inl s')) : ∃ m', Tracked w now i P s' m' := by
  have hv := visit_of_tickBody h.fits hb
  have hsize := hv.size.trans h.size
  have hfits := hv.noOverflow h.fits
  rcases h.lone.visit_cases hb with ⟨hquiet, hlone, hfired⟩ | ⟨hdue, hlone, hfired⟩
  · refine ⟨m, hsize, hfits, hlone, ?_⟩
    rw [h.dueAt_iff] at hquiet
    rw [hv.tick, hfired]
    exact hkept.quiet _ m _ h.holds hv.reached hquiet
  · refine ⟨_, hsize, hfits, hlone, ?_⟩
    rw [h.dueAt_iff] at hdue
    rw [hv.tick, hfired]
    exact hkept.fire _ m _ h.holds hv.reached hdue

theorem Lone.tracked (h : Lone w i m) (hfit : NoOverflow w now) (hP : P w.current_tick_ m 0) :
    Tracked w now i P ⟨w, 0, []⟩ m := ⟨rfl, hfit, h, hP⟩

theorem Lone.tick_kept (h : Lone w i m) (hfit : NoOverflow w now) (hkept : Kept w now i P)
    (hP : P w.current_tick_ m 0) (hr : w.tick n now = some r) :
    ∃ m', Tracked w now i P r m' ∧ now < r.wheel.current_tick_ := by
  apply Loop.run_invariant (fun s => ∃ m, Tracked w now i P s m)
    (fun r => ∃ m', Tracked w now i P r m' ∧ now < r.wheel.current_tick_) ?_ ?_
    ⟨m, h.tracked hfit hP⟩ hr
  · intro s s' ⟨m, hs⟩ hb
    exact hs.visit hkept hb
  · intro s r ⟨m, hs⟩ hb
    obtain ⟨rfl, hpast⟩ := tickBody_leave hb
    exact ⟨m, hs, Nat.lt_of_not_le hpast⟩

theorem Lone.tick_returns (h : Lone w i m) (hfit : NoOverflow w now) (hkept : Kept w now i P)
    (hP : P w.current_tick_ m 0)
    (hno : ∀ c m q, P c m q → c ≤ now → DueAt w now c m → ¬ DueAt w now c (wrap (c + i))) :
    ∃ n r, w.tick n now = some r := by
  refine Loop.exists_run_of_measure (fun s => ∃ m, Tracked w now i P s m)
    (fun s => now + 1 - s.wheel.current_tick_)
    (fun n m s x hnm => tickBody_mono hnm) ?_ ⟨m, h.tracked hfit hP⟩
  intro s ⟨m, hs⟩
  have hbody : ∃ x, tickBody 3 now s = some x := by
    by_cases hle : s.wheel.current_tick_ ≤ now
    · by_cases hdue : DueAt s.wheel now s.wheel.current_tick_ m
      · have hquiet : ¬ Rearms s.wheel now i := by
          intro ⟨htime, hb⟩
          have hagain : DueAt s.wheel now s.wheel.current_tick_ (s.wheel.nextTime i) :=
            ⟨hb.symm, htime⟩
          rw [hs.dueAt_iff] at hdue hagain
          exact hno _ m _ hs.holds hle hdue hagain
        obtain ⟨s', hs', _⟩ := hs.lone.tickBody_due hle hdue hquiet
        exact ⟨_, hs'⟩
      · exact ⟨_, hs.lone.tickBody_quiet hle hdue⟩
    · exact ⟨_, tickBody_past hle⟩
  obtain ⟨x, hx⟩ := hbody
  refine ⟨3, x, hx, ?_⟩
  intro s' heq
  subst heq
  refine ⟨hs.visit hkept hx, ?_⟩
  have hv := visit_of_tickBody hs.fits hx
  have hreached := hv.reached
  have hpos : 0 < tickIntervalNs := by decide
  rw [hv.tick]
  omega

end UltraHft.Core.TimerWheel
