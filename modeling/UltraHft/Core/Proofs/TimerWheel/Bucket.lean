import Mathlib.Data.List.Basic
import UltraHft.Core.TimerWheel

/-!
# One visit to a bucket

`tick` walks over the list of a bucket while the callbacks of recurring timers
append to the buckets, that one included.  A callback that appends a node which
is due already to the bucket being walked *rearms* its timer.  The walk ends
exactly when no due timer of the bucket rearms; it then leaves no due timer in
the bucket, and each recurring one reappears in the bucket of its next time.
-/

namespace UltraHft.Core.TimerWheel

open UltraHft.Lib

variable {C : Type*}

def interval (node : TimerNode C) : Option Nat :=
  match node.callback with
  | .user _ => none
  | .recurring _ intervalNs _ => some intervalNs

def nextTime (w : TimerWheel C) (i : Nat) : Nat := wrap (w.current_tick_ + i)

def currentBucket (w : TimerWheel C) : Nat := w.bucketOf w.current_tick_

/-- A recurring timer with interval `i` is due in the current bucket. -/
def DueHere (w : TimerWheel C) (now i : Nat) : Prop :=
  ∃ node ∈ w.wheels_ w.currentBucket, node.expireTime ≤ now ∧ interval node = some i

/-- A recurring timer with interval `i` that fires now is due again at once, in
the bucket being walked. -/
def Rearms (w : TimerWheel C) (now i : Nat) : Prop :=
  w.nextTime i ≤ now ∧ w.bucketOf (w.nextTime i) = w.currentBucket

/-- The node that running a callback adds to bucket `b`, if any. -/
def spawn (w : TimerWheel C) (node : TimerNode C) (b : Nat) : List (TimerNode C) :=
  match node.callback with
  | .user _ => []
  | .recurring _ i callback =>
      if w.bucketOf (w.nextTime i) = b then
        [⟨w.next_timer_id_, w.nextTime i, .recurring w.next_timer_id_ i callback⟩]
      else []

section Invoke

variable {w : TimerWheel C} {node child : TimerNode C} {now b i : Nat}

theorem invoke_wheels : (w.invoke node.callback).wheels_ b = w.wheels_ b ++ w.spawn node b := by
  unfold invoke spawn
  cases node.callback with
  | user callback => simp
  | recurring id i callback =>
      dsimp only
      split_ifs with hb
      · subst hb
        exact Function.update_self ..
      · rw [List.append_nil]
        exact Function.update_of_ne (Ne.symm hb) ..

theorem invoke_size : (w.invoke node.callback).wheel_size_ = w.wheel_size_ := by
  unfold invoke
  cases node.callback <;> rfl

theorem invoke_tick : (w.invoke node.callback).current_tick_ = w.current_tick_ := by
  unfold invoke
  cases node.callback <;> rfl

theorem mem_spawn (h : child ∈ w.spawn node b) :
    ∃ i, interval node = some i ∧ interval child = some i ∧
      child.expireTime = w.nextTime i ∧ w.bucketOf (w.nextTime i) = b := by
  unfold spawn at h
  unfold interval
  cases hcb : node.callback with
  | user callback => simp [hcb] at h
  | recurring id i callback =>
      simp only [hcb] at h
      split_ifs at h with hb
      · rw [List.mem_singleton.mp h]
        exact ⟨i, rfl, rfl, rfl, hb⟩
      · cases h

theorem spawn_of_plain (hnode : interval node = none) : w.spawn node b = [] := by
  apply List.eq_nil_iff_forall_not_mem.mpr
  intro child hchild
  obtain ⟨i, hi, -⟩ := mem_spawn hchild
  rw [hnode] at hi
  cases hi

theorem exists_mem_spawn (h : interval node = some i) :
    ∃ child ∈ w.spawn node (w.bucketOf (w.nextTime i)),
      interval child = some i ∧ child.expireTime = w.nextTime i := by
  unfold interval at h
  unfold spawn
  cases hcb : node.callback with
  | user callback => simp [hcb] at h
  | recurring id i' callback =>
      simp only [hcb, Option.some.injEq] at h
      subst h
      exact ⟨⟨w.next_timer_id_, w.nextTime i', .recurring w.next_timer_id_ i' callback⟩,
        by simp, rfl, rfl⟩

theorem length_spawn_le : (w.spawn node b).length ≤ 1 := by
  unfold spawn
  cases node.callback with
  | user callback => simp
  | recurring id i callback =>
      dsimp only
      split_ifs <;> simp

end Invoke

/-- The variables after the callback of `node` has run and its position `it`
has been erased. -/
def fireAt (s : Ticking C) (bucket it : Nat) (node : TimerNode C) : Ticking C where
  wheel := { s.wheel.invoke node.callback with
    wheels_ := Function.update (s.wheel.invoke node.callback).wheels_ bucket
      (((s.wheel.invoke node.callback).wheels_ bucket).eraseIdx it) }
  expiredCount := s.expiredCount + 1
  fired := s.fired ++ [node]

section Body

variable {s : Ticking C} {now bucket it b : Nat} {node : TimerNode C}
  {l₁ l₂ : List (TimerNode C)}

theorem bucketBody_due (hl : s.wheel.wheels_ bucket = l₁ ++ node :: l₂)
    (hdue : node.expireTime ≤ now) : bucketBody now bucket (s, l₁.length) =
      some (.inl (fireAt s bucket l₁.length node, l₁.length)) := by
  simp [bucketBody, hl, hdue, fireAt]

theorem bucketBody_skip (hl : s.wheel.wheels_ bucket = l₁ ++ node :: l₂)
    (hdue : ¬ node.expireTime ≤ now) : bucketBody now bucket (s, l₁.length) =
      some (.inl (s, l₁.length + 1)) := by
  simp [bucketBody, hl, hdue]

theorem bucketBody_end (hl : s.wheel.wheels_ bucket = l₁) :
    bucketBody now bucket (s, l₁.length) = some (.inr s) := by
  simp [bucketBody, hl]

@[simp] theorem fireAt_size : (fireAt s bucket it node).wheel.wheel_size_ = s.wheel.wheel_size_ :=
  invoke_size

@[simp] theorem fireAt_tick :
    (fireAt s bucket it node).wheel.current_tick_ = s.wheel.current_tick_ := invoke_tick

theorem fireAt_here (hl : s.wheel.wheels_ bucket = l₁ ++ node :: l₂) :
    (fireAt s bucket l₁.length node).wheel.wheels_ bucket =
      l₁ ++ (l₂ ++ s.wheel.spawn node bucket) := by
  have hinv : (s.wheel.invoke node.callback).wheels_ bucket =
      l₁ ++ (node :: l₂ ++ s.wheel.spawn node bucket) := by
    rw [invoke_wheels, hl, List.append_assoc]
  unfold fireAt
  dsimp only
  rw [Function.update_self, hinv, List.eraseIdx_append_of_length_le (Nat.le_refl _), Nat.sub_self]
  rfl

theorem fireAt_elsewhere (hb : b ≠ bucket) :
    (fireAt s bucket it node).wheel.wheels_ b =
      s.wheel.wheels_ b ++ s.wheel.spawn node b := by
  unfold fireAt
  dsimp only
  rw [Function.update_of_ne hb, invoke_wheels]

end Body

/-! ## The walk -/

/-- `node` was added by a due recurring timer of the current bucket of `w`. -/
def Respawned (w : TimerWheel C) (now b : Nat) (node : TimerNode C) : Prop :=
  ∃ i, DueHere w now i ∧ interval node = some i ∧ node.expireTime = w.nextTime i ∧
    w.bucketOf (w.nextTime i) = b

/-- The walk over the current bucket of `w`, with the part `l₁` behind it and
the part `l₂` ahead. -/
structure Walk (w : TimerWheel C) (now : Nat) (s : Ticking C)
    (l₁ l₂ : List (TimerNode C)) : Prop where
  size : s.wheel.wheel_size_ = w.wheel_size_
  tick : s.wheel.current_tick_ = w.current_tick_
  here : s.wheel.wheels_ w.currentBucket = l₁ ++ l₂
  passed : ∀ node ∈ l₁, ¬ node.expireTime ≤ now
  origin : ∀ b, ∀ node ∈ s.wheel.wheels_ b, node ∈ w.wheels_ b ∨ Respawned w now b node
  kept : ∀ b, ∀ node ∈ w.wheels_ b, (b ≠ w.currentBucket ∨ ¬ node.expireTime ≤ now) →
    node ∈ s.wheel.wheels_ b
  next : ∀ i, DueHere w now i →
    (∃ node ∈ l₂, node.expireTime ≤ now ∧ interval node = some i) ∨
    (w.bucketOf (w.nextTime i) ≠ w.currentBucket →
      ∃ node ∈ s.wheel.wheels_ (w.bucketOf (w.nextTime i)),
        interval node = some i ∧ node.expireTime = w.nextTime i)

namespace Walk

variable {w : TimerWheel C} {now i : Nat} {s : Ticking C} {l₁ l₂ : List (TimerNode C)}
  {node : TimerNode C}

theorem start (w : TimerWheel C) (now count : Nat) (fired : List (TimerNode C)) :
    Walk w now ⟨w, count, fired⟩ [] (w.wheels_ w.currentBucket) where
  size := rfl
  tick := rfl
  here := rfl
  passed := by simp
  origin := fun _ _ h => .inl h
  kept := fun _ _ h _ => h
  next := fun _ h => .inl h

theorem bucketOf_eq (h : Walk w now s l₁ l₂) (time : Nat) :
    s.wheel.bucketOf time = w.bucketOf time := by
  rw [bucketOf, bucketOf, h.size]

theorem nextTime_eq (h : Walk w now s l₁ l₂) (i : Nat) :
    s.wheel.nextTime i = w.nextTime i := by
  rw [nextTime, nextTime, h.tick]

/-- A recurring timer that is due anywhere in the walk was due at its start. -/
theorem dueHere (h : Walk w now s l₁ (node :: l₂)) (hdue : node.expireTime ≤ now)
    (hi : interval node = some i) : DueHere w now i := by
  rcases h.origin w.currentBucket node (by rw [h.here]; simp) with horig | ⟨i', hi', heq, -, -⟩
  · exact ⟨node, horig, hdue, hi⟩
  · rw [hi, Option.some.injEq] at heq
    rwa [heq]

theorem skip (h : Walk w now s l₁ (node :: l₂)) (hdue : ¬ node.expireTime ≤ now) :
    Walk w now s (l₁ ++ [node]) l₂ := by
  refine ⟨h.size, h.tick, by rw [h.here]; simp, ?_, h.origin, h.kept, ?_⟩
  · intro n hn
    rcases List.mem_append.mp hn with hn | hn
    · exact h.passed n hn
    · rwa [List.mem_singleton.mp hn]
  · intro i hi
    rcases h.next i hi with ⟨n, hn, hndue, hni⟩ | hdone
    · rcases List.mem_cons.mp hn with rfl | hn
      · exact (hdue hndue).elim
      · exact .inl ⟨n, hn, hndue, hni⟩
    · exact .inr hdone

theorem fire (h : Walk w now s l₁ (node :: l₂)) (hdue : node.expireTime ≤ now) :
    Walk w now (fireAt s w.currentBucket l₁.length node) l₁
      (l₂ ++ s.wheel.spawn node w.currentBucket) := by
  have hspawn : ∀ b, ∀ child ∈ s.wheel.spawn node b, Respawned w now b child := by
    intro b child hchild
    obtain ⟨i, hi, hci, htime, hb⟩ := mem_spawn hchild
    rw [h.nextTime_eq] at htime hb
    rw [h.bucketOf_eq] at hb
    exact ⟨i, h.dueHere hdue hi, hci, htime, hb⟩
  have hgrow : ∀ b, ∀ n ∈ s.wheel.wheels_ b, (b ≠ w.currentBucket ∨ ¬ n.expireTime ≤ now) →
      n ∈ (fireAt s w.currentBucket l₁.length node).wheel.wheels_ b := by
    intro b n hn hcase
    by_cases hb : b = w.currentBucket
    · subst hb
      have hne : n ≠ node := fun heq => hcase.elim (fun hb => hb rfl) fun hnd => hnd (heq ▸ hdue)
      rw [h.here] at hn
      rw [fireAt_here h.here]
      simp only [List.mem_append, List.mem_cons] at hn ⊢
      tauto
    · rw [fireAt_elsewhere hb]
      exact List.mem_append_left _ hn
  refine ⟨by simp [h.size], by simp [h.tick], fireAt_here h.here, h.passed, ?_, ?_, ?_⟩
  · intro b n hn
    by_cases hb : b = w.currentBucket
    · subst hb
      rw [fireAt_here h.here] at hn
      have hn' : n ∈ s.wheel.wheels_ w.currentBucket ∨
          n ∈ s.wheel.spawn node w.currentBucket := by
        rw [h.here]
        simp only [List.mem_append, List.mem_cons] at hn ⊢
        tauto
      exact hn'.elim (h.origin _ n) fun hn => .inr (hspawn _ n hn)
    · rw [fireAt_elsewhere hb] at hn
      exact (List.mem_append.mp hn).elim (h.origin b n) fun hn => .inr (hspawn b n hn)
  · intro b n hn hcase
    exact hgrow b n (h.kept b n hn hcase) hcase
  · intro i hi
    rcases h.next i hi with ⟨n, hn, hndue, hni⟩ | hdone
    · rcases List.mem_cons.mp hn with rfl | hn
      · -- the timer that fires: its next occurrence is ahead or in another bucket
        right
        intro hb
        obtain ⟨child, hchild, hci, htime⟩ := exists_mem_spawn (w := s.wheel) hni
        rw [h.nextTime_eq] at hchild htime
        rw [h.bucketOf_eq] at hchild
        refine ⟨child, ?_, hci, htime⟩
        rw [fireAt_elsewhere hb]
        exact List.mem_append_right _ hchild
      · exact .inl ⟨n, List.mem_append_left _ hn, hndue, hni⟩
    · right
      intro hb
      obtain ⟨n, hn, hni, htime⟩ := hdone hb
      exact ⟨n, hgrow _ n hn (.inl hb), hni, htime⟩

end Walk

/-! ## How the walk ends -/

section Walking

variable {w : TimerWheel C} {now count i n : Nat} {fired : List (TimerNode C)} {s : Ticking C}

def Walking (w : TimerWheel C) (now : Nat) (st : Ticking C × Nat) : Prop :=
  ∃ l₁ l₂, st.2 = l₁.length ∧ Walk w now st.1 l₁ l₂

theorem Walking.start (w : TimerWheel C) (now count : Nat) (fired : List (TimerNode C)) :
    Walking w now (⟨w, count, fired⟩, 0) :=
  ⟨[], _, rfl, Walk.start w now count fired⟩

theorem Walk.body_cases {l₁ l₂ : List (TimerNode C)} (h : Walk w now s l₁ l₂) :
    (l₂ = [] ∧ bucketBody now w.currentBucket (s, l₁.length) = some (.inr s)) ∨
    (∃ node l₃, l₂ = node :: l₃ ∧ ¬ node.expireTime ≤ now ∧
      bucketBody now w.currentBucket (s, l₁.length) = some (.inl (s, l₁.length + 1))) ∨
    ∃ node l₃, l₂ = node :: l₃ ∧ node.expireTime ≤ now ∧
      bucketBody now w.currentBucket (s, l₁.length) =
        some (.inl (fireAt s w.currentBucket l₁.length node, l₁.length)) := by
  cases l₂ with
  | nil => exact .inl ⟨rfl, bucketBody_end (by simpa using h.here)⟩
  | cons node l₃ =>
      by_cases hdue : node.expireTime ≤ now
      · exact .inr (.inr ⟨node, l₃, rfl, hdue, bucketBody_due h.here hdue⟩)
      · exact .inr (.inl ⟨node, l₃, rfl, hdue, bucketBody_skip h.here hdue⟩)

/-- An iteration that goes on has skipped or fired the next timer. -/
theorem Walk.step_cases {l₁ l₂ : List (TimerNode C)} (h : Walk w now s l₁ l₂)
    {st' : Ticking C × Nat}
    (hstep : bucketBody now w.currentBucket (s, l₁.length) = some (.inl st')) :
    (∃ node l₃, l₂ = node :: l₃ ∧ ¬ node.expireTime ≤ now ∧ st' = (s, l₁.length + 1)) ∨
    ∃ node l₃, l₂ = node :: l₃ ∧ node.expireTime ≤ now ∧
      st' = (fireAt s w.currentBucket l₁.length node, l₁.length) := by
  rcases h.body_cases with ⟨-, hb⟩ | ⟨node, l₃, hl, hdue, hb⟩ | ⟨node, l₃, hl, hdue, hb⟩
  · rw [hb] at hstep
    cases hstep
  · rw [hb] at hstep
    exact .inl ⟨node, l₃, hl, hdue, (Sum.inl.inj (Option.some.inj hstep)).symm⟩
  · rw [hb] at hstep
    exact .inr ⟨node, l₃, hl, hdue, (Sum.inl.inj (Option.some.inj hstep)).symm⟩

theorem Walking.next {st st' : Ticking C × Nat} (h : Walking w now st)
    (hstep : bucketBody now w.currentBucket st = some (.inl st')) : Walking w now st' := by
  obtain ⟨s, it⟩ := st
  obtain ⟨l₁, l₂, rfl, hwalk⟩ := h
  rcases hwalk.step_cases hstep with ⟨node, l₃, rfl, hdue, rfl⟩ | ⟨node, l₃, rfl, hdue, rfl⟩
  · exact ⟨l₁ ++ [node], l₃, by simp, hwalk.skip hdue⟩
  · exact ⟨l₁, _, rfl, hwalk.fire hdue⟩

theorem bucket_exit {st : Ticking C × Nat} (hst : Walking w now st)
    (hrun : Loop.run (bucketBody now w.currentBucket) n st = some s) :
    ∃ l, Walk w now s l [] := by
  apply Loop.run_invariant (Walking w now) (fun s => ∃ l, Walk w now s l [])
    (fun _ _ h hstep => h.next hstep) ?_ hst hrun
  rintro ⟨s', it⟩ q ⟨l₁, l₂, rfl, hwalk⟩ hleave
  rcases hwalk.body_cases with ⟨rfl, hb⟩ | ⟨node, l₃, rfl, hdue, hb⟩ | ⟨node, l₃, rfl, hdue, hb⟩
  · rw [hb] at hleave
    obtain rfl := Sum.inr.inj (Option.some.inj hleave)
    exact ⟨l₁, hwalk⟩
  · rw [hb] at hleave
    cases hleave
  · rw [hb] at hleave
    cases hleave

/-- The timers ahead that are due, counted twice, and those that are not. -/
def walkMeasure (now bucket : Nat) (st : Ticking C × Nat) : Nat :=
  2 * ((st.1.wheel.wheels_ bucket).drop st.2).countP (fun node => decide (node.expireTime ≤ now)) +
    ((st.1.wheel.wheels_ bucket).drop st.2).length

theorem Walk.measure_eq {l₁ l₂ : List (TimerNode C)} (h : Walk w now s l₁ l₂) :
    walkMeasure now w.currentBucket (s, l₁.length) =
      2 * l₂.countP (fun node => decide (node.expireTime ≤ now)) + l₂.length := by
  rw [walkMeasure, h.here, List.drop_left]

/-- Without a timer that rearms the walk ends. -/
theorem bucket_returns (hno : ∀ i, DueHere w now i → ¬ Rearms w now i)
    (count : Nat) (fired : List (TimerNode C)) :
    ∃ n s, Loop.run (bucketBody now w.currentBucket) n (⟨w, count, fired⟩, 0) = some s := by
  refine ⟨walkMeasure now w.currentBucket (⟨w, count, fired⟩, 0) + 1, ?_⟩
  apply Loop.run_measure (Walking w now) (walkMeasure now w.currentBucket) ?_ ?_
    (Walking.start w now count fired) (Nat.lt_succ_self _)
  · rintro ⟨s', it⟩ ⟨l₁, l₂, rfl, hwalk⟩
    rcases hwalk.body_cases with ⟨-, hb⟩ | ⟨node, l₃, -, -, hb⟩ | ⟨node, l₃, -, -, hb⟩ <;>
      simp [hb]
  · intro st st' hst hstep
    refine ⟨hst.next hstep, ?_⟩
    obtain ⟨s', it⟩ := st
    obtain ⟨l₁, l₂, rfl, hwalk⟩ := hst
    rw [hwalk.measure_eq]
    rcases hwalk.step_cases hstep with ⟨node, l₃, rfl, hdue, rfl⟩ | ⟨node, l₃, rfl, hdue, rfl⟩
    · have hmeasure := (hwalk.skip hdue).measure_eq
      rw [List.length_append, List.length_singleton] at hmeasure
      rw [hmeasure, List.countP_cons_of_neg (by simpa using hdue), List.length_cons]
      omega
    · rw [(hwalk.fire hdue).measure_eq]
      dsimp only
      -- what the callback adds to this bucket is not due
      have hnone : (s'.wheel.spawn node w.currentBucket).countP
          (fun child => decide (child.expireTime ≤ now)) = 0 := by
        rw [List.countP_eq_zero]
        intro child hchild
        obtain ⟨i, hi, -, htime, hb⟩ := mem_spawn hchild
        rw [hwalk.nextTime_eq] at htime hb
        rw [hwalk.bucketOf_eq] at hb
        rw [htime, decide_eq_true_eq]
        exact fun hle => hno i (hwalk.dueHere hdue hi) ⟨hle, hb⟩
      have hlen : (s'.wheel.spawn node w.currentBucket).length ≤ 1 := length_spawn_le
      rw [List.countP_append, hnone, List.length_append,
        List.countP_cons_of_pos (by simpa using hdue), List.length_cons]
      omega

/-- A timer that rearms keeps the walk going forever. -/
theorem bucket_hangs (hdue : DueHere w now i) (hre : Rearms w now i)
    (count : Nat) (fired : List (TimerNode C)) :
    Loop.Hangs (bucketBody now w.currentBucket) (⟨w, count, fired⟩, 0) := by
  apply Loop.hangs_of_invariant (fun st => ∃ l₁ l₂, st.2 = l₁.length ∧ Walk w now st.1 l₁ l₂ ∧
    ∃ node ∈ l₂, node.expireTime ≤ now ∧ interval node = some i)
  · rintro ⟨s', it⟩ ⟨l₁, l₂, rfl, hwalk, n, hn, hndue, hni⟩
    right
    rcases hwalk.body_cases with ⟨rfl, -⟩ | ⟨node, l₃, rfl, hd, hb⟩ | ⟨node, l₃, rfl, hd, hb⟩
    · cases hn
    · refine ⟨_, hb, l₁ ++ [node], l₃, by simp, hwalk.skip hd, n, ?_, hndue, hni⟩
      rcases List.mem_cons.mp hn with rfl | hn
      · exact (hd hndue).elim
      · exact hn
    · refine ⟨_, hb, l₁, _, rfl, hwalk.fire hd, ?_⟩
      rcases List.mem_cons.mp hn with rfl | hn
      · obtain ⟨child, hchild, hci, htime⟩ := exists_mem_spawn (w := s'.wheel) hni
        rw [hwalk.nextTime_eq] at hchild htime
        rw [hwalk.bucketOf_eq, hre.2] at hchild
        exact ⟨child, List.mem_append_right _ hchild, by rw [htime]; exact hre.1, hci⟩
      · exact ⟨n, List.mem_append_left _ hn, hndue, hni⟩
  · exact ⟨[], _, rfl, Walk.start w now count fired, hdue⟩

end Walking

end UltraHft.Core.TimerWheel
