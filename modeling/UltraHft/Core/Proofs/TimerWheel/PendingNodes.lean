import UltraHft.Core.Proofs.TimerWheel.Calls
import UltraHft.Lib.Buckets

/-!
# The pending timers as a whole

The nodes of all buckets, with no regard to which bucket holds what.  Each
operation adds and removes single nodes; a tick is a sequence of firings, each
of which takes a due node out and puts in what its callback schedules.
-/

namespace UltraHft.Core.TimerWheel

open UltraHft.Lib

variable {C : Type*} {w w' : TimerWheel C} {now n bucket it timerId : Nat}
  {s s' r : Ticking C} {node : TimerNode C}

def pendingNodes (w : TimerWheel C) : Multiset (TimerNode C) :=
  Buckets.gathered w.wheel_size_ w.wheels_

theorem mem_pendingNodes : node ∈ w.pendingNodes ↔ w.Pending node := Buckets.mem_gathered

theorem card_pendingNodes : w.pendingNodes.card = w.pendingCount := Buckets.card_gathered

theorem pendingNodes_new (size : Nat) (hsize : 0 < size) : (new C size hsize).pendingNodes = 0 := by
  apply Multiset.eq_zero_of_forall_notMem
  intro node hnode
  obtain ⟨b, _, hmem⟩ := mem_pendingNodes.mp hnode
  cases hmem

theorem pendingNodes_clear : w.clear.pendingNodes = 0 := by
  apply Multiset.eq_zero_of_forall_notMem
  intro node hnode
  obtain ⟨b, _, hmem⟩ := mem_pendingNodes.mp hnode
  cases hmem

theorem bucketOf_lt (w : TimerWheel C) (time : Nat) : w.bucketOf time < w.wheel_size_ :=
  Nat.mod_lt _ w.size_pos

/-! ## The operations -/

theorem pendingNodes_emplace (w : TimerWheel C) (expireTime : Nat) (callback : Callback C) :
    (w.emplace expireTime callback).2.pendingNodes =
      ⟨w.next_timer_id_, expireTime, callback⟩ ::ₘ w.pendingNodes :=
  Buckets.gathered_push (w.bucketOf_lt expireTime)

theorem cancel_cases (w : TimerWheel C) (timerId : Nat) :
    (w.cancel timerId = (false, w) ∧ ∀ node ∈ w.pendingNodes, node.id ≠ timerId) ∨
    ∃ node w', w.cancel timerId = (true, w') ∧ node.id = timerId ∧
      w.pendingNodes = node ::ₘ w'.pendingNodes ∧ w'.next_timer_id_ = w.next_timer_id_ := by
  unfold cancel
  split
  case h_1 hnone =>
    left
    refine ⟨rfl, ?_⟩
    intro node hnode hid
    obtain ⟨b, hb, hmem⟩ := mem_pendingNodes.mp hnode
    have hnot := List.find?_eq_none.mp hnone b (List.mem_range.mpr hb)
    apply hnot
    rw [List.any_eq_true]
    exact ⟨node, hmem, beq_iff_eq.mpr hid⟩
  case h_2 b hfound =>
    right
    have hb : b < w.wheel_size_ := List.mem_range.mp (List.mem_of_find?_eq_some hfound)
    have hany := List.find?_some hfound
    obtain ⟨first, hfirst, hid⟩ := List.any_eq_true.mp hany
    obtain ⟨node, l₁, l₂, _, hnode, hl, herase⟩ :=
      List.exists_of_eraseP (p := fun n : TimerNode C => n.id == timerId) hfirst hid
    refine ⟨node, _, rfl, beq_iff_eq.mp hnode, ?_, rfl⟩
    rw [herase]
    exact Buckets.gathered_remove hb hl

def offspring (w : TimerWheel C) (node : TimerNode C) : List (TimerNode C) :=
  match node.callback with
  | .user _ => []
  | .recurring _ i callback =>
      [⟨w.next_timer_id_, w.nextTime i, .recurring w.next_timer_id_ i callback⟩]

theorem pendingNodes_invoke (w : TimerWheel C) (node : TimerNode C) :
    (w.invoke node.callback).pendingNodes = w.pendingNodes + ↑(w.offspring node) := by
  unfold invoke offspring
  cases node.callback with
  | user callback => exact (add_zero _).symm
  | recurring id i callback =>
      dsimp only
      rw [scheduleRecurring, pendingNodes_emplace, Multiset.coe_singleton]
      exact (Multiset.singleton_add _ _).symm.trans (add_comm _ _)

theorem invoke_nextId (w : TimerWheel C) (node : TimerNode C) :
    (w.invoke node.callback).next_timer_id_ =
      if (interval node).isSome then wrap (w.next_timer_id_ + 1) else w.next_timer_id_ := by
  unfold invoke interval
  cases node.callback <;> rfl

/-! ## Firings -/

/-- One callback of a tick to `now` has run: that of a due node, which is gone. -/
structure Fires (now : Nat) (s : Ticking C) (node : TimerNode C) (s' : Ticking C) : Prop where
  mem : node ∈ s.wheel.pendingNodes
  due : node.expireTime ≤ now
  pending : s.wheel.pendingNodes + ↑(s.wheel.offspring node) = node ::ₘ s'.wheel.pendingNodes
  fired : s'.fired = s.fired ++ [node]
  count : s'.expiredCount = s.expiredCount + 1
  nextId : s'.wheel.next_timer_id_ = (s.wheel.invoke node.callback).next_timer_id_
  tick : s'.wheel.current_tick_ = s.wheel.current_tick_
  size : s'.wheel.wheel_size_ = s.wheel.wheel_size_

theorem fires_fireAt (hbucket : bucket < s.wheel.wheel_size_)
    (hnode : (s.wheel.wheels_ bucket)[it]? = some node) (hdue : node.expireTime ≤ now) :
    Fires now s node (fireAt s bucket it node) := by
  have hmem : node ∈ s.wheel.pendingNodes :=
    mem_pendingNodes.mpr ⟨bucket, hbucket, List.mem_of_getElem? hnode⟩
  refine ⟨hmem, hdue, ?_, rfl, rfl, rfl, fireAt_tick, fireAt_size⟩
  obtain ⟨hit, hget⟩ := List.getElem?_eq_some_iff.mp hnode
  have hsplit : s.wheel.wheels_ bucket =
      (s.wheel.wheels_ bucket).take it ++ node :: (s.wheel.wheels_ bucket).drop (it + 1) := by
    rw [← hget, List.cons_getElem_drop_succ, List.take_append_drop]
  have hinvoked : (s.wheel.invoke node.callback).wheels_ bucket =
      (s.wheel.wheels_ bucket).take it ++
        node :: ((s.wheel.wheels_ bucket).drop (it + 1) ++ s.wheel.spawn node bucket) := by
    rw [invoke_wheels, ← List.cons_append, ← List.append_assoc, ← hsplit]
  have hlen : ((s.wheel.wheels_ bucket).take it).length = it := by
    rw [List.length_take]
    omega
  have herase : ((s.wheel.invoke node.callback).wheels_ bucket).eraseIdx it =
      (s.wheel.wheels_ bucket).take it ++
        ((s.wheel.wheels_ bucket).drop (it + 1) ++ s.wheel.spawn node bucket) := by
    rw [hinvoked, List.eraseIdx_append_of_length_le (by omega), hlen, Nat.sub_self]
    rfl
  have hbucket' : bucket < (s.wheel.invoke node.callback).wheel_size_ := by
    rw [invoke_size]
    exact hbucket
  have hremove := Buckets.gathered_remove hbucket' hinvoked
  rw [← herase] at hremove
  rw [← pendingNodes_invoke]
  exact hremove

theorem bucketBody_cases {st : Ticking C × Nat} (hbucket : bucket < s.wheel.wheel_size_)
    (h : bucketBody now bucket (s, it) = some (.inl st)) :
    st = (s, it + 1) ∨ ∃ node, Fires now s node st.1 := by
  unfold bucketBody at h
  dsimp only at h
  cases hnode : (s.wheel.wheels_ bucket)[it]? with
  | none =>
      rw [hnode] at h
      cases h
  | some node =>
      rw [hnode] at h
      dsimp only at h
      by_cases hdue : node.expireTime ≤ now
      · rw [if_pos hdue] at h
        rw [← Sum.inl.inj (Option.some.inj h)]
        exact .inr ⟨node, fires_fireAt hbucket hnode hdue⟩
      · rw [if_neg hdue] at h
        exact .inl (Sum.inl.inj (Option.some.inj h)).symm

theorem bucketBody_leave (h : bucketBody now bucket (s, it) = some (.inr s')) : s' = s := by
  unfold bucketBody at h
  dsimp only at h
  cases hnode : (s.wheel.wheels_ bucket)[it]? with
  | none =>
      rw [hnode] at h
      exact (Sum.inr.inj (Option.some.inj h)).symm
  | some node =>
      rw [hnode] at h
      dsimp only at h
      split_ifs at h
      · cases Option.some.inj h
      · cases Option.some.inj h

theorem advance_pendingNodes : s.advance.wheel.pendingNodes = s.wheel.pendingNodes := by
  unfold pendingNodes
  rw [advance_wheels, advance_size]

theorem advance_fired : s.advance.fired = s.fired := by
  cases s
  rfl

theorem advance_count : s.advance.expiredCount = s.expiredCount := by
  cases s
  rfl

theorem atTick_nextId (time : Nat) : (w.atTick time).next_timer_id_ = w.next_timer_id_ := by
  cases w
  rfl

theorem advance_nextId : s.advance.wheel.next_timer_id_ = s.wheel.next_timer_id_ := by
  cases s
  exact atTick_nextId _

section Invariant

/-! What every firing and the step to the next bucket keep, a tick keeps. -/

variable (I : Ticking C → Prop) (hfire : ∀ s node s', I s → Fires now s node s' → I s')
include hfire

theorem bucketBody_keeps {st st' : Ticking C × Nat}
    (hst : I st.1 ∧ bucket < st.1.wheel.wheel_size_)
    (h : bucketBody now bucket st = some (.inl st')) :
    I st'.1 ∧ bucket < st'.1.wheel.wheel_size_ := by
  rcases bucketBody_cases hst.2 h with rfl | ⟨node, hfires⟩
  · exact hst
  · rw [hfires.size]
    exact ⟨hfire _ node _ hst.1 hfires, hst.2⟩

variable (hadvance : ∀ s, I s → I s.advance)
include hadvance

theorem tickBody_keeps (hs : I s) (h : tickBody n now s = some (.inl s')) : I s' := by
  by_cases hle : s.wheel.current_tick_ ≤ now
  · rw [tickBody_reached hle, Option.map_eq_some_iff] at h
    obtain ⟨t, hwalk, heq⟩ := h
    rw [← Sum.inl.inj heq]
    have hbucket : s.wheel.currentBucket < s.wheel.wheel_size_ := s.wheel.bucketOf_lt _
    apply hadvance
    apply Loop.run_invariant
      (fun st : Ticking C × Nat => I st.1 ∧ s.wheel.currentBucket < st.1.wheel.wheel_size_)
      I ?_ ?_ ⟨hs, hbucket⟩ hwalk
    · intro st st' hst hbody
      exact bucketBody_keeps I hfire hst hbody
    · intro st s' hst hbody
      rw [bucketBody_leave hbody]
      exact hst.1
  · rw [tickBody_past hle] at h
    cases h

theorem tick_invariant (hstart : I ⟨w, 0, []⟩) (h : w.tick n now = some r) : I r := by
  apply Loop.run_invariant I I ?_ ?_ hstart h
  · intro s s' hs hstep
    exact tickBody_keeps I hfire hadvance hs hstep
  · intro s s' hs hstep
    rw [(tickBody_leave hstep).1]
    exact hs

theorem passes_invariant (hstart : I ⟨w, 0, []⟩) (h : w.Passes now r) : I r := by
  obtain ⟨fuel, t, it, hticked, _, hwalked⟩ := h
  have ht : I t := by
    apply hticked.invariant I ?_ hstart
    intro s s' hs hstep
    exact tickBody_keeps I hfire hadvance hs hstep
  have hbucket : t.wheel.bucketOf t.wheel.current_tick_ < t.wheel.wheel_size_ :=
    t.wheel.bucketOf_lt _
  have hkept : I r ∧ t.wheel.bucketOf t.wheel.current_tick_ < r.wheel.wheel_size_ := by
    apply hwalked.invariant (fun st : Ticking C × Nat =>
      I st.1 ∧ t.wheel.bucketOf t.wheel.current_tick_ < st.1.wheel.wheel_size_) ?_ ⟨ht, hbucket⟩
    intro st st' hst hbody
    exact bucketBody_keeps I hfire hst hbody
  exact hkept.1

end Invariant

end UltraHft.Core.TimerWheel
