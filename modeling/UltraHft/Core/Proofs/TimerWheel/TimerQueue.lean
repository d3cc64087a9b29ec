import UltraHft.Core.Proofs.TimerWheel.FiringOrder
import UltraHft.Core.Proofs.TimerWheel.Recurring
import UltraHft.Lib.Simulation
import UltraHft.Lib.TimerQueue

/-!
# The wheel as a timer queue

Behind its buckets a wheel keeps one queue of timers, those of a bucket in the order
of the queue.  A tick that finds what is due within a rotation of `current_tick_`
meets the timers in the order of the milliseconds, and those of one millisecond
together in a bucket: so it fires what a timer queue fires, in the same order.
-/

namespace UltraHft.Core.TimerWheel

open UltraHft.Lib UltraHft.Lib.TimerQueue

variable {C : Type*} {w w' : TimerWheel C} {now n b j k time : Nat} {s s' r : Ticking C}
  {node : TimerNode C} {l₁ l₂ : List (TimerNode C)}

/-! ## What a tick leaves -/

theorem left_of_run (hl : s.wheel.wheels_ b = l₁ ++ l₂)
    (hplain : ∀ node ∈ l₂, interval node = none)
    (h : Loop.run (bucketBody now b) n (s, l₁.length) = some s') :
    s'.wheel.wheels_ b = l₁ ++ l₂.filter fun node => now < node.expireTime := by
  induction l₂ generalizing s l₁ n with
  | nil =>
      cases n with
      | zero => cases h
      | succ n =>
          rw [List.append_nil] at hl
          rw [Loop.run_succ_leave (bucketBody_end hl)] at h
          obtain rfl := Option.some.inj h
          rw [hl, List.filter_nil, List.append_nil]
  | cons node l₂ ih =>
      have hrest : ∀ node ∈ l₂, interval node = none :=
        fun node' hmem => hplain node' (List.mem_cons_of_mem node hmem)
      cases n with
      | zero => cases h
      | succ n =>
          by_cases hdue : node.expireTime ≤ now
          · rw [Loop.run_succ_next (bucketBody_due hl hdue)] at h
            have hl' : (fireAt s b l₁.length node).wheel.wheels_ b = l₁ ++ l₂ := by
              rw [fireAt_here hl, spawn_of_plain (hplain node List.mem_cons_self), List.append_nil]
            rw [ih hl' hrest h, List.filter_cons_of_neg (by simpa using hdue)]
          · rw [Loop.run_succ_next (bucketBody_skip hl hdue)] at h
            have hl' : s.wheel.wheels_ b = (l₁ ++ [node]) ++ l₂ := by
              rw [hl, List.append_assoc]
              rfl
            rw [show l₁.length + 1 = (l₁ ++ [node]).length by simp] at h
            rw [ih hl' hrest h, List.filter_cons_of_pos (by simpa using hdue), List.append_assoc]
            rfl

theorem left_of_tickBody (hplain : Plain s.wheel) (h : tickBody n now s = some (.inl s')) :
    s'.wheel.wheels_ s.wheel.currentBucket =
      (s.wheel.wheels_ s.wheel.currentBucket).filter fun node => now < node.expireTime := by
  by_cases hle : s.wheel.current_tick_ ≤ now
  · rw [tickBody_reached hle, Option.map_eq_some_iff] at h
    obtain ⟨t, ht, hx⟩ := h
    rw [← Sum.inl.inj hx, advance_wheels]
    exact left_of_run (List.nil_append _).symm (hplain _) ht
  · rw [tickBody_past hle] at h
    cases h

/-- A tick to `now` that began with `w` has made `k` visits; the buckets that it has
visited have what was not due in them. -/
structure Emptying (w : TimerWheel C) (now : Nat) (s : Ticking C) (k : Nat) : Prop where
  firing : Firing w now s k
  left : ∀ j < k, s.wheel.wheels_ (w.bucketAfter j) =
    (w.wheels_ (w.bucketAfter j)).filter fun node => now < node.expireTime

theorem Emptying.visit (h : Emptying w now s k) (hplain : Plain w)
    (hstep : tickBody n now s = some (.inl s')) : Emptying w now s' (k + 1) := by
  have hplain' : Plain s.wheel :=
    fun b node hnode => hplain b node (h.firing.sweep.subset b node hnode)
  have hhere : s.wheel.currentBucket = w.bucketAfter k := by
    rw [bucketAfter, currentBucket, h.firing.sweep.tick, bucketOf, bucketOf, h.firing.sweep.size]
  have hleft := left_of_tickBody hplain' hstep
  have hwalked := walked_of_tickBody hplain' hstep
  rw [hhere] at hleft hwalked
  -- the bucket has been visited before, or it is as it was when the tick began
  have hagain : s'.wheel.wheels_ (w.bucketAfter k) =
      (w.wheels_ (w.bucketAfter k)).filter fun node => now < node.expireTime := by
    rw [hleft]
    by_cases hbefore : ∃ j < k, w.bucketAfter j = w.bucketAfter k
    · obtain ⟨j, hj, hsame⟩ := hbefore
      rw [← hsame, h.left j hj, List.filter_filter]
      simp only [Bool.and_self]
    · rw [h.firing.waiting]
      intro j hj hsame
      exact hbefore ⟨j, hj, hsame⟩
  refine ⟨h.firing.visit hplain hstep, ?_⟩
  intro j hj
  by_cases hsame : w.bucketAfter j = w.bucketAfter k
  · rw [hsame, hagain]
  · have hlt : j < k := by
      rcases Nat.lt_succ_iff_lt_or_eq.mp hj with hlt | rfl
      · exact hlt
      · exact absurd rfl hsame
    rw [hwalked.elsewhere _ hsame, h.left j hlt]

theorem tick_empties (hfit : NoOverflow w now) (hplain : Plain w) :
    ∃ n r k, w.tick n now = some r ∧ Emptying w now r k ∧ Moves w now r ∧
      ∀ j, j < k ↔ w.current_tick_ + j * tickIntervalNs ≤ now := by
  obtain ⟨n, r, hr⟩ := tick_returns hfit hplain.not_rearmsDuring
  have hempty : ∃ k, Emptying w now r k ∧ now < r.wheel.current_tick_ := by
    apply Loop.run_invariant (fun s => ∃ k, Emptying w now s k)
      (fun s => ∃ k, Emptying w now s k ∧ now < s.wheel.current_tick_) ?_ ?_
      ⟨0, Firing.start hfit, by simp⟩ hr
    · intro s s' ⟨k, hs⟩ hstep
      exact ⟨k + 1, hs.visit hplain hstep⟩
    · intro s s' ⟨k, hs⟩ hstep
      obtain ⟨rfl, hpast⟩ := tickBody_leave hstep
      exact ⟨k, hs, Nat.lt_of_not_le hpast⟩
  obtain ⟨k, hk, hpast⟩ := hempty
  refine ⟨n, r, k, hr, hk, tick_moves ?_ hr, ?_⟩
  · intro node hnode
    obtain ⟨b, -, hmem⟩ := mem_pendingNodes.mp hnode
    exact hplain b node hmem
  · intro j
    constructor
    · exact hk.firing.sweep.reached j
    · intro hle
      by_contra hjk
      have hmul : k * tickIntervalNs ≤ j * tickIntervalNs :=
        Nat.mul_le_mul_right _ (Nat.le_of_not_lt hjk)
      have htick := hk.firing.sweep.tick
      omega

/-! ## One queue behind the buckets -/

/-- A request to a wheel; the callbacks that a tick runs are seen in their order. -/
noncomputable def respond (w : TimerWheel C) : Request C → Option (Reply C × TimerWheel C)
  | .schedule durationNs callback =>
      some (.scheduled (w.schedule durationNs callback).1, (w.schedule durationNs callback).2)
  | .scheduleAt absoluteTimeNs callback =>
      some (.scheduled (w.scheduleAt absoluteTimeNs callback).1,
        (w.scheduleAt absoluteTimeNs callback).2)
  | .cancel timerId => some (.cancelled (w.cancel timerId).1, (w.cancel timerId).2)
  | .advance currentTimeNs =>
      (Loop.outcome fun fuel => w.tick fuel currentTimeNs).map fun r =>
        (.fired r.expiredCount
          (r.fired.map fun node => ⟨node.id, node.expireTime, node.callback.target⟩), r.wheel)
  | .clear => some (.cleared, w.clear)
  | .count => some (.number w.pendingCount, w)
  | .clock => some (.number w.current_tick_, w)

def nodeOf (x : Timer C) : TimerNode C := ⟨x.id, x.due, .user x.action⟩

/-- The bucket that a timer belongs in. -/
def home (w : TimerWheel C) (x : Timer C) : Nat := w.bucketOf x.due

/-- The wheel has the timers of the queue, each bucket those that belong in it. -/
structure Keeps (size : Nat) (w : TimerWheel C) (q : Queue C) : Prop where
  sound : q.Sound tickIntervalNs
  size : w.wheel_size_ = size
  buckets : ∀ b, w.wheels_ b = (StableSort.bucket w.home q.waiting b).map nodeOf
  clock : w.current_tick_ = q.clock
  nextId : w.next_timer_id_ = q.nextId

variable {size : Nat} {q : Queue C} {x : Timer C}

theorem keeps_new (size : Nat) (hsize : 0 < size) :
    Keeps size (new C size hsize) (Queue.empty C) where
  sound := Queue.sound_empty tickIntervalNs C
  size := rfl
  buckets := fun _ => rfl
  clock := rfl
  nextId := rfl

theorem Keeps.mem_wheels (h : Keeps size w q) :
    node ∈ w.wheels_ b ↔ ∃ x ∈ q.waiting, w.home x = b ∧ nodeOf x = node := by
  rw [h.buckets, List.mem_map]
  constructor
  · rintro ⟨x, hx, rfl⟩
    obtain ⟨hmem, hb⟩ := StableSort.mem_bucket.mp hx
    exact ⟨x, hmem, hb, rfl⟩
  · rintro ⟨x, hmem, hb, rfl⟩
    refine ⟨x, ?_, rfl⟩
    rw [StableSort.mem_bucket]
    exact ⟨hmem, hb⟩

theorem Keeps.plain (h : Keeps size w q) : Plain w := by
  intro b node hnode
  obtain ⟨x, -, -, rfl⟩ := h.mem_wheels.mp hnode
  rfl

theorem Keeps.pendingCount_eq (h : Keeps size w q) : w.pendingCount = q.waiting.length := by
  have hlengths : ∀ b, (w.wheels_ b).length = (q.waiting.filter fun x => w.home x = b).length := by
    intro b
    rw [h.buckets, List.length_map]
    rfl
  unfold pendingCount
  simp only [hlengths]
  rw [← Buckets.card_gathered, Buckets.gathered_filter w.home fun x _ => w.bucketOf_lt x.due,
    Multiset.coe_card]

theorem Keeps.emplace (h : Keeps size w q) (hid : q.nextId + 1 < 2 ^ 64) (due : Nat) (action : C) :
    (w.emplace due (.user action)).1 = q.nextId ∧
      Keeps size (w.emplace due (.user action)).2 (q.add due action).2 := by
  refine ⟨h.nextId, h.sound.add due action, h.size, ?_, h.clock, ?_⟩
  · intro b
    change Function.update w.wheels_ (w.bucketOf due) _ b =
      ((q.waiting ++ [(⟨q.nextId, due, action⟩ : Timer C)]).filter fun x =>
        decide (w.home x = b)).map nodeOf
    rw [List.filter_append, List.map_append]
    by_cases hb : b = w.bucketOf due
    · subst hb
      rw [Function.update_self, h.buckets, List.filter_cons_of_pos (by simp [home])]
      simp [nodeOf, h.nextId, StableSort.bucket]
    · rw [Function.update_of_ne hb, h.buckets, List.filter_cons_of_neg]
      · simp [StableSort.bucket]
      · rw [decide_eq_true_eq]
        exact Ne.symm hb
  · change wrap (w.next_timer_id_ + 1) = q.nextId + 1
    rw [h.nextId]
    exact Nat.mod_eq_of_lt hid

theorem Keeps.clear (h : Keeps size w q) :
    Keeps size w.clear (q.next tickIntervalNs .clear).2 where
  sound := h.sound.next .clear
  size := h.size
  buckets := fun _ => rfl
  clock := rfl
  nextId := h.nextId

/-- Where the ids are distinct, to erase the first node of an id is to erase them
all. -/
theorem eraseP_eq_filter {l : List (TimerNode C)} (h : (l.map TimerNode.id).Nodup)
    (timerId : Nat) : (l.eraseP fun node => node.id == timerId) =
      l.filter fun node => node.id ≠ timerId := by
  induction l with
  | nil => rfl
  | cons node l ih =>
      rw [List.map_cons, List.nodup_cons] at h
      by_cases hid : node.id = timerId
      · rw [List.eraseP_cons_of_pos (by simpa using hid),
          List.filter_cons_of_neg (by simpa using hid)]
        symm
        rw [List.filter_eq_self]
        intro other hother
        rw [decide_eq_true_eq]
        rintro rfl
        exact h.1 (List.mem_map.mpr ⟨other, hother, hid.symm⟩)
      · rw [List.eraseP_cons_of_neg (by simpa using hid),
          List.filter_cons_of_pos (by simpa using hid), ih h.2]

theorem Keeps.cancel (h : Keeps size w q) (timerId : Nat) :
    (w.cancel timerId).1 = q.waiting.any (fun x => x.id = timerId) ∧
      Keeps size (w.cancel timerId).2 (q.next tickIntervalNs (.cancel timerId)).2 := by
  have hsound := h.sound.next (.cancel timerId)
  unfold TimerWheel.cancel
  split
  case h_1 hnone =>
    have habsent : ∀ x ∈ q.waiting, x.id ≠ timerId := by
      intro x hx hid
      have hb : w.home x ∈ List.range w.wheel_size_ := List.mem_range.mpr (w.bucketOf_lt x.due)
      apply List.find?_eq_none.mp hnone _ hb
      rw [List.any_eq_true]
      exact ⟨nodeOf x, h.mem_wheels.mpr ⟨x, hx, rfl, rfl⟩, by simpa [nodeOf] using hid⟩
    have hsame : q.waiting.filter (fun x => decide (x.id ≠ timerId)) = q.waiting := by
      rw [List.filter_eq_self]
      intro x hx
      exact decide_eq_true (habsent x hx)
    refine ⟨?_, hsound, h.size, ?_, h.clock, h.nextId⟩
    · symm
      rw [List.any_eq_false]
      intro x hx
      simpa using habsent x hx
    · intro b
      change w.wheels_ b = (StableSort.bucket w.home (q.waiting.filter _) b).map nodeOf
      rw [hsame, h.buckets]
  case h_2 b hfound =>
    have hany := List.find?_some hfound
    obtain ⟨node, hnode, hid⟩ := List.any_eq_true.mp hany
    obtain ⟨x, hx, hxb, rfl⟩ := h.mem_wheels.mp hnode
    have hxid : x.id = timerId := by simpa [nodeOf] using hid
    refine ⟨?_, hsound, h.size, ?_, h.clock, h.nextId⟩
    · symm
      rw [List.any_eq_true]
      exact ⟨x, hx, by simpa using hxid⟩
    · intro b'
      change Function.update w.wheels_ b _ b' =
        (StableSort.bucket w.home (q.waiting.filter fun x => decide (x.id ≠ timerId)) b').map nodeOf
      by_cases hb : b' = b
      · subst hb
        have hdistinct : ((w.wheels_ b').map TimerNode.id).Nodup := by
          rw [h.buckets, List.map_map]
          exact h.sound.distinct.sublist (List.filter_sublist.map Timer.id)
        rw [Function.update_self, eraseP_eq_filter hdistinct, h.buckets, List.filter_map]
        congr 1
        exact List.filter_comm _ _ _
      · -- the timer of the id waits in another bucket
        rw [Function.update_of_ne hb, h.buckets]
        congr 1
        rw [StableSort.bucket, StableSort.bucket, List.filter_filter]
        apply List.filter_congr
        intro y hy
        by_cases hyb : w.home y = b'
        · have hyid : y.id ≠ timerId := by
            intro hyid
            have hyx : y = x :=
              List.inj_on_of_nodup_map h.sound.distinct hy hx (hyid.trans hxid.symm)
            rw [hyx, hxb] at hyb
            exact hb hyb.symm
          simp [hyb, hyid]
        · simp [hyb]

/-- What is due expires within the rotation that begins at the clock. -/
def DueWithin (size : Nat) (q : Queue C) (time : Nat) : Prop :=
  ∀ x ∈ q.waiting, x.due ≤ time → q.clock ≤ x.due ∧ x.due < q.clock + size * tickIntervalNs

theorem Keeps.slot_cases (h : Keeps size w q) (hwithin : DueWithin size q time)
    (hx : x ∈ q.waiting) (hdue : x.due ≤ time) : ∃ j < size,
      x.slot tickIntervalNs = q.clock / tickIntervalNs + j ∧
      q.clock + j * tickIntervalNs ≤ time ∧ w.home x = w.bucketAfter j := by
  obtain ⟨hge, hlt⟩ := hwithin x hx hdue
  obtain ⟨c, hc⟩ := h.sound.aligned
  refine ⟨x.due / tickIntervalNs - c, ?_, ?_, ?_, ?_⟩
  all_goals
    have hclock : q.clock / tickIntervalNs = c := by
      rw [hc]
      exact Nat.mul_div_cancel_left c (by decide)
  · simp only [tickIntervalNs] at *
    omega
  · rw [Timer.slot, hclock]
    simp only [tickIntervalNs] at *
    omega
  · simp only [tickIntervalNs] at *
    omega
  · rw [bucketAfter_eq, h.clock, hclock, home, bucketOf]
    congr 1
    simp only [tickIntervalNs] at *
    omega

theorem Keeps.dueIn_eq (h : Keeps size w q) (hwithin : DueWithin size q time) (hj : j < size) :
    w.dueIn time (w.bucketAfter j) =
      (StableSort.bucket (Timer.slot tickIntervalNs) (q.dueBy time)
        (q.clock / tickIntervalNs + j)).map nodeOf := by
  rw [dueIn, h.buckets, List.filter_map]
  congr 1
  rw [StableSort.bucket, StableSort.bucket, Queue.dueBy, List.filter_filter, List.filter_filter]
  apply List.filter_congr
  intro x hx
  by_cases hdue : x.due ≤ time
  · obtain ⟨i, hi, hslot, -, hhome⟩ := h.slot_cases hwithin hx hdue
    have hsame : w.home x = w.bucketAfter j ↔
        x.slot tickIntervalNs = q.clock / tickIntervalNs + j := by
      rw [hhome, hslot]
      constructor
      · intro heq
        rw [bucketAfter_inj (h.size ▸ hi) (h.size ▸ hj) heq]
      · intro heq
        rw [Nat.add_left_cancel heq]
    simp only [Function.comp, nodeOf, hdue, hsame, decide_true, Bool.true_and, Bool.and_true]
  · simp [nodeOf, hdue]

/-- A tick to a time that overflows nothing, from which no due timer escapes. -/
theorem Keeps.tick (h : Keeps size w q) (hfit : time + tickIntervalNs < 2 ^ 64)
    (hwithin : DueWithin size q time) :
    ∃ w', respond w (.advance time) = some ((q.advance tickIntervalNs time).1, w') ∧
      Keeps size w' (q.advance tickIntervalNs time).2 := by
  obtain ⟨n, r, k, hr, hempty, hmoves, hk⟩ := tick_empties (noOverflow_of_lt hfit) h.plain
  have hreached : ∀ j, j < k ↔ q.clock + j * tickIntervalNs ≤ time := by
    intro j
    rw [hk, h.clock]
  have hfired : r.fired =
      (StableSort.sort (Timer.slot tickIntervalNs) (q.dueBy time)).map nodeOf := by
    have hsorted : StableSort.buckets (Timer.slot tickIntervalNs) (q.dueBy time)
        (q.clock / tickIntervalNs) (min k size) =
          StableSort.sort (Timer.slot tickIntervalNs) (q.dueBy time) := by
      apply StableSort.buckets_eq_sort
      intro x hx
      obtain ⟨hmem, hdue⟩ := Queue.mem_dueBy.mp hx
      obtain ⟨j, hj, hslot, hle, -⟩ := h.slot_cases hwithin hmem hdue
      have hjk := (hreached j).mpr hle
      omega
    rw [hempty.firing.fired, firedBy, h.size, ← hsorted, StableSort.buckets, List.map_flatMap]
    apply List.flatMap_congr
    intro j hj
    have hlt := List.mem_range.mp hj
    exact h.dueIn_eq hwithin (by omega)
  have hleft : ∀ b, r.wheel.wheels_ b =
      (w.wheels_ b).filter fun node => time < node.expireTime := by
    intro b
    by_cases hvisited : ∃ j < k, w.bucketAfter j = b
    · obtain ⟨j, hj, rfl⟩ := hvisited
      exact hempty.left j hj
    · rw [hempty.firing.waiting b fun j hj hb => hvisited ⟨j, hj, hb⟩]
      symm
      rw [List.filter_eq_self]
      intro node hnode
      rw [decide_eq_true_eq]
      by_contra hdue
      obtain ⟨x, hx, hhome, rfl⟩ := h.mem_wheels.mp hnode
      obtain ⟨j, -, -, hj, hafter⟩ := h.slot_cases hwithin hx (Nat.le_of_not_lt hdue)
      exact hvisited ⟨j, (hreached j).mpr hj, hafter.symm.trans hhome⟩
  have hreply : (Reply.fired r.expiredCount
      (r.fired.map fun node => ⟨node.id, node.expireTime, node.callback.target⟩) : Reply C) =
        (q.advance tickIntervalNs time).1 := by
    have hcount : r.expiredCount = (q.dueBy time).length := by
      rw [hmoves.count, hfired, List.length_map, StableSort.sort, List.length_mergeSort]
    have htimers : (r.fired.map fun node =>
        (⟨node.id, node.expireTime, node.callback.target⟩ : Timer C)) =
          StableSort.sort (Timer.slot tickIntervalNs) (q.dueBy time) := by
      rw [hfired, List.map_map]
      exact List.map_id' _
    rw [hcount, htimers]
    rfl
  refine ⟨r.wheel, ?_, ?_⟩
  · have houtcome : (Loop.outcome fun fuel => w.tick fuel time) = some r :=
      (Loop.outcome_eq_some fun _ _ _ hnm => tick_mono hnm).mpr ⟨n, hr⟩
    rw [respond, houtcome, Option.map_some, hreply]
  · constructor
    · exact h.sound.next (.advance time)
    · rw [hempty.firing.sweep.size, h.size]
    · intro b
      have hhome : r.wheel.home = w.home := by
        funext x
        rw [home, home, bucketOf, bucketOf, hempty.firing.sweep.size]
      rw [hleft, h.buckets, hhome, List.filter_map]
      congr 1
      exact List.filter_comm _ _ _
    · have htick := hempty.firing.sweep.tick
      obtain ⟨c, hc⟩ := h.sound.aligned
      have hfirst := hreached 0
      have hlast := hreached (k - 1)
      have hpast := hreached k
      change r.wheel.current_tick_ =
        if q.clock ≤ time then (time / tickIntervalNs + 1) * tickIntervalNs else q.clock
      rw [htick, h.clock]
      simp only [tickIntervalNs] at *
      split_ifs with hle
      · omega
      · omega
    · exact hmoves.nextId.trans h.nextId

/-- What a wheel of `size` buckets can serve as a timer queue does: no number leaves
its 64 bits, and nothing is due from before the clock or beyond a rotation. -/
def Serves (size : Nat) (q : Queue C) : Request C → Prop
  | .schedule delay _ => q.clock + delay < 2 ^ 64 ∧ q.nextId + 1 < 2 ^ 64
  | .scheduleAt _ _ => q.nextId + 1 < 2 ^ 64
  | .advance time => time + tickIntervalNs < 2 ^ 64 ∧ DueWithin size q time
  | _ => True

theorem respond_matches (size : Nat) :
    Simulation.Matches respond (Queue.next tickIntervalNs) (fun request => request)
      (fun reply => reply) (Keeps (C := C) size) fun _ q request => Serves size q request := by
  intro w q request h hserves
  cases request with
  | schedule delay action =>
      obtain ⟨hid, hkeeps⟩ := h.emplace hserves.2 (q.clock + delay) action
      have hschedule : w.schedule delay action = w.emplace (q.clock + delay) (.user action) := by
        rw [TimerWheel.schedule, h.clock]
        congr 1
        exact Nat.mod_eq_of_lt hserves.1
      refine ⟨_, _, rfl, ?_, ?_⟩
      · rw [hschedule, hid]
        rfl
      · rw [hschedule]
        exact hkeeps
  | scheduleAt due action =>
      obtain ⟨hid, hkeeps⟩ := h.emplace hserves due action
      exact ⟨_, _, rfl, congrArg Reply.scheduled hid, hkeeps⟩
  | cancel timerId =>
      obtain ⟨hfound, hkeeps⟩ := h.cancel timerId
      exact ⟨_, _, rfl, congrArg Reply.cancelled hfound, hkeeps⟩
  | advance time =>
      obtain ⟨w', hrespond, hkeeps⟩ := h.tick hserves.1 hserves.2
      exact ⟨_, _, hrespond, rfl, hkeeps⟩
  | clear => exact ⟨_, _, rfl, rfl, h.clear⟩
  | count => exact ⟨_, _, rfl, congrArg Reply.number h.pendingCount_eq, h⟩
  | clock => exact ⟨_, _, rfl, congrArg Reply.number h.clock, h⟩

/-- **A new wheel answers any requests for one-shot timers as a timer queue does, as
long as every tick finds what is due within a rotation of the clock: the same ids,
the same timers fired in the same order, the same counts; also after a `clear`, which
sets the clock back and lets the ids go on.** -/
theorem follows_timerQueue (size : Nat) (hsize : 0 < size) (requests : List (Request C))
    (hserves : ∀ pre request, pre ++ [request] <+: requests →
      Serves size (Simulation.trace (Queue.next tickIntervalNs) (Queue.empty C) pre).2 request) :
    ∃ w, Simulation.answers respond (new C size hsize) requests =
        some ((Simulation.trace (Queue.next tickIntervalNs) (Queue.empty C) requests).1, w) ∧
      Keeps size w (Simulation.trace (Queue.next tickIntervalNs) (Queue.empty C) requests).2 := by
  obtain ⟨replies, w, hrun, hreplies, hkeeps⟩ :=
    (respond_matches size).answers (keeps_new size hsize) requests fun pre request hpre _ _ => by
      rw [List.map_id']
      exact hserves pre request hpre
  simp only [List.map_id'] at hreplies hkeeps
  exact ⟨w, hreplies ▸ hrun, hkeeps⟩

/-- Two timers, the later one scheduled first, a tick to after both and a `clear`. -/
theorem follows_timerQueue_twoTimers : ∃ w,
    Simulation.answers respond (new Unit defaultWheelSize (by decide))
      [.schedule 2000000 (), .schedule 1000000 (), .advance 3000000, .clear] =
        some ((Simulation.trace (Queue.next tickIntervalNs) (Queue.empty Unit)
          [.schedule 2000000 (), .schedule 1000000 (), .advance 3000000, .clear]).1, w) := by
  have hserves : ∀ pre request, pre ++ [request] <+:
      [.schedule 2000000 (), .schedule 1000000 (), .advance 3000000, .clear] →
        Serves defaultWheelSize
          (Simulation.trace (Queue.next tickIntervalNs) (Queue.empty Unit) pre).2 request := by
    intro pre request hpre
    rcases pre with _ | ⟨first, _ | ⟨second, _ | ⟨third, rest⟩⟩⟩
    · simp only [List.nil_append, List.cons_prefix_cons] at hpre
      obtain ⟨rfl, -⟩ := hpre
      exact ⟨by decide, by decide⟩
    · simp only [List.cons_append, List.nil_append, List.cons_prefix_cons] at hpre
      obtain ⟨rfl, rfl, -⟩ := hpre
      exact ⟨by decide, by decide⟩
    · simp only [List.cons_append, List.nil_append, List.cons_prefix_cons] at hpre
      obtain ⟨rfl, rfl, rfl, -⟩ := hpre
      refine ⟨by decide, ?_⟩
      intro x hx _
      have hcases : x = ⟨1, 2000000, ()⟩ ∨ x = ⟨2, 1000000, ()⟩ := by
        simpa [Simulation.trace, Queue.next, Queue.add, Queue.empty] using hx
      rcases hcases with rfl | rfl
      · exact ⟨by decide, by decide⟩
      · exact ⟨by decide, by decide⟩
    · simp only [List.cons_append, List.cons_prefix_cons] at hpre
      have hmem := hpre.2.2.2.subset (List.mem_append_right rest (List.mem_singleton_self _))
      rw [List.mem_singleton.mp hmem]
      trivial
  obtain ⟨w, hrun, -⟩ := follows_timerQueue defaultWheelSize (by decide)
    [.schedule 2000000 (), .schedule 1000000 (), .advance 3000000, .clear] hserves
  exact ⟨w, hrun⟩

end UltraHft.Core.TimerWheel
