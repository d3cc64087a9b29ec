import Mathlib.Data.List.Flatten
import Mathlib.Data.Nat.ModEq
import UltraHft.Core.Proofs.TimerWheel.PendingNodes
import UltraHft.Core.Proofs.TimerWheel.Timely

/-!
# The order in which a tick fires

A tick goes round the wheel once, from the bucket of `current_tick_` on, and fires
what is due in each bucket in the order of its list.  Due is what expires by the
time the tick is for, and not by the time of the visit, so a timer that is a
rotation away fires at the first visit to its bucket.
-/

namespace UltraHft.Core

open UltraHft.Lib

variable {C : Type*}

def TimerNode.millisecond (node : TimerNode C) : Nat :=
  node.expireTime / TimerWheel.tickIntervalNs

namespace TimerWheel

variable {w w' : TimerWheel C} {now n b j k : Nat} {s s' r : Ticking C} {node x y : TimerNode C}
  {l₁ l₂ : List (TimerNode C)}

/-! ## One bucket -/

def dueIn (w : TimerWheel C) (now b : Nat) : List (TimerNode C) :=
  (w.wheels_ b).filter fun node => node.expireTime ≤ now

theorem mem_dueIn : node ∈ w.dueIn now b ↔ node ∈ w.wheels_ b ∧ node.expireTime ≤ now := by
  rw [dueIn, List.mem_filter, decide_eq_true_eq]

/-- What a walk over the rest `l₂` of a bucket makes of `s`. -/
structure Walked (now b : Nat) (l₂ : List (TimerNode C)) (s s' : Ticking C) : Prop where
  fired : s'.fired = s.fired ++ l₂.filter fun node => node.expireTime ≤ now
  elsewhere : ∀ b' ≠ b, s'.wheel.wheels_ b' = s.wheel.wheels_ b'

theorem walked_of_run (hl : s.wheel.wheels_ b = l₁ ++ l₂)
    (hplain : ∀ node ∈ l₂, interval node = none)
    (h : Loop.run (bucketBody now b) n (s, l₁.length) = some s') : Walked now b l₂ s s' := by
  induction l₂ generalizing s l₁ n with
  | nil =>
      cases n with
      | zero => cases h
      | succ n =>
          rw [List.append_nil] at hl
          rw [Loop.run_succ_leave (bucketBody_end hl)] at h
          obtain rfl := Option.some.inj h
          exact ⟨(List.append_nil _).symm, fun _ _ => rfl⟩
  | cons node l₂ ih =>
      have hnode := hplain node List.mem_cons_self
      have hrest : ∀ node ∈ l₂, interval node = none :=
        fun node' hmem => hplain node' (List.mem_cons_of_mem node hmem)
      cases n with
      | zero => cases h
      | succ n =>
          by_cases hdue : node.expireTime ≤ now
          · rw [Loop.run_succ_next (bucketBody_due hl hdue)] at h
            have hl' : (fireAt s b l₁.length node).wheel.wheels_ b = l₁ ++ l₂ := by
              rw [fireAt_here hl, spawn_of_plain hnode, List.append_nil]
            have hwalked := ih hl' hrest h
            constructor
            · rw [hwalked.fired, List.filter_cons_of_pos (by simpa using hdue)]
              exact List.append_assoc ..
            · intro b' hb'
              rw [hwalked.elsewhere b' hb', fireAt_elsewhere hb', spawn_of_plain hnode,
                List.append_nil]
          · rw [Loop.run_succ_next (bucketBody_skip hl hdue)] at h
            have hl' : s.wheel.wheels_ b = (l₁ ++ [node]) ++ l₂ := by
              rw [hl, List.append_assoc]
              rfl
            rw [show l₁.length + 1 = (l₁ ++ [node]).length by simp] at h
            have hwalked := ih hl' hrest h
            constructor
            · rw [hwalked.fired, List.filter_cons_of_neg (by simpa using hdue)]
            · exact hwalked.elsewhere

theorem walked_of_tickBody (hplain : Plain s.wheel) (h : tickBody n now s = some (.inl s')) :
    Walked now s.wheel.currentBucket (s.wheel.wheels_ s.wheel.currentBucket) s s' := by
  by_cases hle : s.wheel.current_tick_ ≤ now
  · rw [tickBody_reached hle, Option.map_eq_some_iff] at h
    obtain ⟨t, ht, hx⟩ := h
    have hwalked := walked_of_run (List.nil_append _).symm (hplain _) ht
    rw [← Sum.inl.inj hx]
    constructor
    · rw [advance_fired]
      exact hwalked.fired
    · intro b' hb'
      rw [advance_wheels]
      exact hwalked.elsewhere b' hb'
  · rw [tickBody_past hle] at h
    cases h

/-! ## Once round the wheel -/

/-- The bucket that a tick visits after `j` others. -/
def bucketAfter (w : TimerWheel C) (j : Nat) : Nat :=
  w.bucketOf (w.current_tick_ + j * tickIntervalNs)

theorem bucketAfter_eq :
    w.bucketAfter j = (w.current_tick_ / tickIntervalNs + j) % w.wheel_size_ := by
  have hpos : 0 < tickIntervalNs := by decide
  rw [bucketAfter, bucketOf, Nat.add_mul_div_right _ _ hpos]

theorem bucketAfter_inj (hj : j < w.wheel_size_) (hk : k < w.wheel_size_)
    (h : w.bucketAfter j = w.bucketAfter k) : j = k := by
  rw [bucketAfter_eq, bucketAfter_eq] at h
  exact (Nat.ModEq.add_left_cancel' _ h).eq_of_lt_of_lt hj hk

theorem bucketAfter_add_size : w.bucketAfter (j + w.wheel_size_) = w.bucketAfter j := by
  rw [bucketAfter_eq, bucketAfter_eq, ← Nat.add_assoc, Nat.add_mod_right]

/-- What a tick fires in its first `k` visits: round the wheel once, the due timers
of each bucket. -/
def firedBy (w : TimerWheel C) (now k : Nat) : List (TimerNode C) :=
  (List.range (min k w.wheel_size_)).flatMap fun j => w.dueIn now (w.bucketAfter j)

theorem firedBy_succ (hk : k < w.wheel_size_) :
    w.firedBy now (k + 1) = w.firedBy now k ++ w.dueIn now (w.bucketAfter k) := by
  unfold firedBy
  rw [Nat.min_eq_left hk, Nat.min_eq_left hk.le, List.range_succ, List.flatMap_append,
    List.flatMap_singleton]

theorem firedBy_of_size_le (hk : w.wheel_size_ ≤ k) :
    w.firedBy now (k + 1) = w.firedBy now k := by
  unfold firedBy
  rw [Nat.min_eq_right hk, Nat.min_eq_right (Nat.le_succ_of_le hk)]

/-- A tick to `now` that began with `w` has made `k` visits. -/
structure Firing (w : TimerWheel C) (now : Nat) (s : Ticking C) (k : Nat) : Prop where
  sweep : Sweep w now s k
  fired : s.fired = w.firedBy now k
  waiting : ∀ b, (∀ j < k, w.bucketAfter j ≠ b) → s.wheel.wheels_ b = w.wheels_ b

theorem Firing.start (hfit : NoOverflow w now) : Firing w now ⟨w, 0, []⟩ 0 where
  sweep := Sweep.start hfit 0 []
  fired := by simp [firedBy]
  waiting := fun _ _ => rfl

/-- The visit to a bucket for the first time fires what was due there from the
start, later visits find nothing that is due. -/
theorem Firing.visit (h : Firing w now s k) (hplain : Plain w)
    (hstep : tickBody n now s = some (.inl s')) : Firing w now s' (k + 1) := by
  have hhere : s.wheel.currentBucket = w.bucketAfter k := by
    rw [bucketAfter, currentBucket, h.sweep.tick, bucketOf, bucketOf, h.sweep.size]
  have hplain' : Plain s.wheel := fun b node hnode => hplain b node (h.sweep.subset b node hnode)
  have hwalked := walked_of_tickBody hplain' hstep
  rw [hhere] at hwalked
  constructor
  case sweep => exact h.sweep.visit hplain (visit_of_tickBody h.sweep.fits hstep)
  case fired =>
    rw [hwalked.fired, h.fired]
    by_cases hk : k < w.wheel_size_
    · have hfirst : s.wheel.wheels_ (w.bucketAfter k) = w.wheels_ (w.bucketAfter k) := by
        apply h.waiting
        intro j hj hsame
        exact hj.ne (bucketAfter_inj (hj.trans hk) hk hsame)
      rw [firedBy_succ hk, hfirst]
      rfl
    · obtain ⟨j, rfl⟩ := Nat.exists_eq_add_of_le' (Nat.le_of_not_lt hk)
      have hswept := h.sweep.swept j (by have := w.size_pos; omega)
      have hnone : (s.wheel.wheels_ (w.bucketAfter (j + w.wheel_size_))).filter
          (fun node => node.expireTime ≤ now) = [] := by
        rw [bucketAfter_add_size, List.filter_eq_nil_iff]
        intro node hnode
        simpa using hswept node hnode
      rw [firedBy_of_size_le (Nat.le_of_not_lt hk), hnone, List.append_nil]
  case waiting =>
    intro b hb
    have hother : b ≠ w.bucketAfter k := (hb k (Nat.lt_succ_self k)).symm
    rw [hwalked.elsewhere b hother]
    exact h.waiting b fun j hj => hb j (Nat.lt_succ_of_lt hj)

/-- A tick over one-shot timers returns, and fires them in the order in which it
meets them. -/
theorem tick_firedBy (hfit : NoOverflow w now) (hplain : Plain w) :
    ∃ n r k, w.tick n now = some r ∧ r.fired = w.firedBy now k ∧
      ∀ j, j < k ↔ w.current_tick_ + j * tickIntervalNs ≤ now := by
  obtain ⟨n, r, hr⟩ := tick_returns hfit hplain.not_rearmsDuring
  have hfiring : ∃ k, Firing w now r k ∧ now < r.wheel.current_tick_ := by
    apply Loop.run_invariant (fun s => ∃ k, Firing w now s k)
      (fun s => ∃ k, Firing w now s k ∧ now < s.wheel.current_tick_) ?_ ?_
      ⟨0, Firing.start hfit⟩ hr
    · intro s s' ⟨k, hs⟩ hstep
      exact ⟨k + 1, hs.visit hplain hstep⟩
    · intro s s' ⟨k, hs⟩ hstep
      obtain ⟨rfl, hpast⟩ := tickBody_leave hstep
      exact ⟨k, hs, Nat.lt_of_not_le hpast⟩
  obtain ⟨k, hk, hpast⟩ := hfiring
  refine ⟨n, r, k, hr, hk.fired, ?_⟩
  intro j
  constructor
  · exact hk.sweep.reached j
  · intro hle
    by_contra hjk
    have hmul : k * tickIntervalNs ≤ j * tickIntervalNs :=
      Nat.mul_le_mul_right _ (Nat.le_of_not_lt hjk)
    have htick := hk.sweep.tick
    omega

/-! ## When the order is that of the times -/

/-- A tick to `now` visits more than `j` buckets for the first time. -/
def Visits (w : TimerWheel C) (now j : Nat) : Prop :=
  j < w.wheel_size_ ∧ w.current_tick_ + j * tickIntervalNs ≤ now

/-- On its way round the wheel a tick to `now` meets the due timer `x` before the
due timer `y`. -/
inductive MeetsFirst (w : TimerWheel C) (now : Nat) (x y : TimerNode C) : Prop
  | bucket {i j : Nat} (before : i < j) (visited : w.Visits now j)
      (hx : x ∈ w.dueIn now (w.bucketAfter i)) (hy : y ∈ w.dueIn now (w.bucketAfter j))
  | place {j : Nat} (visited : w.Visits now j)
      (order : [x, y].Sublist (w.dueIn now (w.bucketAfter j)))

/-- No due timer is met before one of an earlier millisecond. -/
def InOrder (w : TimerWheel C) (now : Nat) : Prop :=
  ∀ x y, w.MeetsFirst now x y → x.millisecond ≤ y.millisecond

/-- The next tick, to `now`, returns and has fired in the order of the milliseconds
in which the timers expired. -/
def FiresInOrder (w : TimerWheel C) (now : Nat) : Prop :=
  ∃ n r, w.tick n now = some r ∧ r.fired.Pairwise fun x y => x.millisecond ≤ y.millisecond

theorem pairwise_firedBy (hk : ∀ j, j < k ↔ w.current_tick_ + j * tickIntervalNs ≤ now)
    {R : TimerNode C → TimerNode C → Prop} :
    (w.firedBy now k).Pairwise R ↔ ∀ x y, w.MeetsFirst now x y → R x y := by
  have hvisits : ∀ j, j < min k w.wheel_size_ ↔ w.Visits now j := by
    intro j
    rw [Nat.lt_min, hk, and_comm]
    rfl
  unfold firedBy
  rw [List.pairwise_flatMap]
  constructor
  · intro ⟨hwithin, hacross⟩ x y hmeets
    cases hmeets with
    | bucket before visited hx hy =>
        have hj := (hvisits _).mpr visited
        have hpair := List.pairwise_iff_getElem.mp hacross _ _
          (by rw [List.length_range]; exact before.trans hj) (by rw [List.length_range]; exact hj)
          before
        rw [List.getElem_range, List.getElem_range] at hpair
        exact hpair x hx y hy
    | place visited order =>
        have hj := List.mem_range.mpr ((hvisits _).mpr visited)
        exact List.pairwise_iff_forall_sublist.mp (hwithin _ hj) order
  · intro hall
    constructor
    · intro j hj
      have hvisited := (hvisits j).mp (List.mem_range.mp hj)
      apply List.pairwise_iff_forall_sublist.mpr
      intro x y horder
      exact hall x y (.place hvisited horder)
    · apply List.pairwise_iff_getElem.mpr
      intro i j hi hj hij
      rw [List.length_range] at hj
      rw [List.getElem_range, List.getElem_range]
      intro x hx y hy
      exact hall x y (.bucket hij ((hvisits j).mp hj) hx hy)

theorem tick_unique {m : Nat} {r' : Ticking C} (h : w.tick n now = some r)
    (h' : w.tick m now = some r') : r = r' := by
  have hmax := tick_mono (Nat.le_max_left n m) h
  rw [tick_mono (Nat.le_max_right n m) h'] at hmax
  exact (Option.some.inj hmax).symm

theorem Plain.firesInOrder_iff (hplain : Plain w) (hfit : NoOverflow w now) :
    w.FiresInOrder now ↔ w.InOrder now := by
  obtain ⟨n, r, k, hr, hfired, hk⟩ := tick_firedBy hfit hplain
  unfold InOrder
  rw [← pairwise_firedBy hk, ← hfired]
  constructor
  · intro ⟨m, r', hr', horder⟩
    rwa [tick_unique hr hr']
  · intro horder
    exact ⟨n, r, hr, horder⟩

/-- The due timers expire in the milliseconds of the rotation to come. -/
def WithinRotation (w : TimerWheel C) (now : Nat) : Prop :=
  ∀ node, w.Pending node → node.expireTime ≤ now →
    w.current_tick_ / tickIntervalNs ≤ node.millisecond ∧
      node.millisecond < w.current_tick_ / tickIntervalNs + w.wheel_size_

theorem Stored.millisecond_eq (h : Stored w) (hrot : w.WithinRotation now)
    (hj : j < w.wheel_size_) (hx : x ∈ w.dueIn now (w.bucketAfter j)) :
    x.millisecond = w.current_tick_ / tickIntervalNs + j := by
  obtain ⟨hmem, hdue⟩ := mem_dueIn.mp hx
  have hpending : w.Pending x := ⟨_, w.bucketOf_lt _, hmem⟩
  obtain ⟨hge, hlt⟩ := hrot x hpending hdue
  obtain ⟨i, hi⟩ := Nat.exists_eq_add_of_le hge
  have hbucket := h.placed _ x hmem
  rw [bucketAfter_eq, bucketOf] at hbucket
  change x.millisecond % _ = _ at hbucket
  rw [hi] at hbucket hlt ⊢
  have hsame : i = j :=
    (Nat.ModEq.add_left_cancel' _ hbucket).eq_of_lt_of_lt (by omega) hj
  rw [hsame]

/-- Within a rotation the way round the wheel is the order of the milliseconds. -/
theorem Stored.inOrder (h : Stored w) (hrot : w.WithinRotation now) : w.InOrder now := by
  intro x y hmeets
  cases hmeets with
  | bucket before visited hx hy =>
      rw [h.millisecond_eq hrot (before.trans visited.1) hx, h.millisecond_eq hrot visited.1 hy]
      exact Nat.add_le_add_left before.le _
  | place visited order =>
      have hx := order.subset List.mem_cons_self
      have hy := order.subset (List.mem_cons_of_mem x List.mem_cons_self)
      rw [h.millisecond_eq hrot visited.1 hx, h.millisecond_eq hrot visited.1 hy]

/-! ## Runs -/

theorem stored_new (size : Nat) (hsize : 0 < size) : Stored (new C size hsize) :=
  (fresh_new size hsize).stored

theorem Stored.step (h : Stored w) {call : WheelCall C} (hcall : w.OneShot call)
    (hstep : w.step call = some w') : Stored w' := by
  cases call with
  | schedule durationNs callback =>
      obtain rfl := Option.some.inj hstep
      exact h.emplace _ callback
  | scheduleAt absoluteTimeNs callback => exact hcall.elim
  | scheduleRecurring intervalNs callback => exact hcall.elim
  | cancel timerId =>
      obtain rfl := Option.some.inj hstep
      exact h.cancel timerId
  | tick now =>
      obtain ⟨n, r, hr, rfl⟩ := step_tick_eq_some.mp hstep
      obtain ⟨⟨k, hs⟩, -⟩ := tick_sweeps hcall h.plain hr
      exact hs.stored h

theorem stored_of_run {size : Nat} {hsize : 0 < size} {calls : List (WheelCall C)}
    (honce : ∀ pre call, pre ++ [call] <+: calls →
      ∀ w, Runs.exec step (new C size hsize) pre = some w → w.OneShot call)
    (hw : Runs.exec step (new C size hsize) calls = some w) : Stored w := by
  apply Runs.exec_partial (fun _ w => Stored w) (stored_new size hsize) ?_ hw
  intro pre call v v' hpre hv hstored hstep
  exact hstored.step (honce pre call hpre v hv) hstep

/-- On every wheel that a run of one-shot timers leads to, a tick fires in the order
of the milliseconds exactly when it meets no due timer before one of an earlier
millisecond.  It does so when all that is due expires within the rotation to come. -/
theorem firesInOrder_iff_inOrder (size : Nat) (hsize : 0 < size) (calls : List (WheelCall C))
    (honce : ∀ pre call, pre ++ [call] <+: calls →
      ∀ w, Runs.exec step (new C size hsize) pre = some w → w.OneShot call)
    (w : TimerWheel C) (hw : Runs.exec step (new C size hsize) calls = some w)
    (now : Nat) (hfit : w.NoOverflow now) :
    (w.FiresInOrder now ↔ w.InOrder now) ∧ (w.WithinRotation now → w.FiresInOrder now) := by
  have hstored := stored_of_run honce hw
  have hiff := hstored.plain.firesInOrder_iff hfit
  exact ⟨hiff, fun hrot => hiff.mpr (hstored.inOrder hrot)⟩

/-- A timer that is due in a rotation and a millisecond, and one that is due in two
milliseconds. -/
def longFirst : List (WheelCall Unit) := [.schedule 257000000 (), .schedule 2000000 ()]

theorem longFirst_oneShot (pre : List (WheelCall Unit)) (call : WheelCall Unit)
    (hpre : pre ++ [call] <+: longFirst) (w : TimerWheel Unit)
    (hw : Runs.exec step (new Unit defaultWheelSize (by decide)) pre = some w) :
    w.OneShot call := by
  cases pre with
  | nil =>
      obtain rfl : call = .schedule 257000000 () := by simpa [longFirst] using hpre
      obtain rfl := Option.some.inj hw
      change 0 + 257000000 < 2 ^ 64
      decide
  | cons first rest =>
      rw [longFirst, List.cons_append, List.cons_prefix_cons] at hpre
      obtain ⟨rfl, hrest⟩ := hpre
      cases rest with
      | nil =>
          obtain rfl : call = .schedule 2000000 () := by simpa using hrest
          obtain rfl := Option.some.inj hw
          change 0 + 2000000 < 2 ^ 64
          decide
      | cons second rest =>
          have hlength := hrest.length_le
          simp at hlength

theorem firesInOrder_iff_inOrder_longFirst : ∃ w : TimerWheel Unit,
    Runs.exec step (new Unit defaultWheelSize (by decide)) longFirst = some w ∧
      (w.FiresInOrder 100000000 ↔ w.InOrder 100000000) ∧
      (w.WithinRotation 100000000 → w.FiresInOrder 100000000) :=
  ⟨_, rfl, firesInOrder_iff_inOrder defaultWheelSize (by decide) longFirst longFirst_oneShot _ rfl
    100000000 (noOverflow_of_lt (by decide))⟩

/-- The jump of 300 milliseconds fires the one due in 257 before the one due in 2. -/
theorem longFirst_not_firesInOrder : ∃ w : TimerWheel Unit,
    Runs.exec step (new Unit defaultWheelSize (by decide)) longFirst = some w ∧
      w.NoOverflow 300000000 ∧ ¬ w.FiresInOrder 300000000 := by
  refine ⟨_, rfl, noOverflow_of_lt (by decide), ?_⟩
  intro ⟨n, r, hr, horder⟩
  have hfired : ((((new Unit defaultWheelSize (by decide)).schedule 257000000 ()).2.schedule
      2000000 ()).2.tick 310 300000000).map (fun r => r.fired.map TimerNode.millisecond) =
        some [257, 2] := by
    decide +kernel
  obtain ⟨r', hr', hmilliseconds⟩ := Option.map_eq_some_iff.mp hfired
  obtain rfl := tick_unique hr hr'
  have hsorted : (r.fired.map TimerNode.millisecond).Pairwise (· ≤ ·) :=
    List.pairwise_map.mpr horder
  rw [hmilliseconds] at hsorted
  exact absurd hsorted (by decide)

end TimerWheel

end UltraHft.Core
