import UltraHft.Core.Proofs.TimerWheel.History
import UltraHft.Core.TimerWheelReentrant

/-!
# What callbacks ask of the wheel

A callback schedules and cancels while `tick` stands at its node.  Whatever it does, the
iterator stays at that node and has passed nothing due; only the cancel of the timer that
is running takes the node away.
-/

namespace UltraHft.Core.TimerWheel

open UltraHft.Lib
open TimerQueue (Timer)
open TimerService (Event Service)

variable {C : Type*} {w : TimerWheel C} {s s' : Reentrant C} {t : Service C} {now it : Nat}
  {node : TimerNode C} {prompt : Prop}

/-! ## Invariants -/

/-- Ids are in use once and have been given out, and nodes are in the buckets of their
times. -/
structure Settled (prompt : Prop) (w : TimerWheel C) : Prop where
  distinct : (w.pendingNodes.map TimerNode.id).Nodup
  given : ∀ node ∈ w.pendingNodes, node.id < w.next_timer_id_
  placed : ∀ b, ∀ node ∈ w.wheels_ b, w.bucketOf node.expireTime = b
  aligned : prompt → tickIntervalNs ∣ w.current_tick_

/-- The iterator has passed nothing due.  Of a prompt service, nothing due lies behind. -/
structure Passing (prompt : Prop) (w : TimerWheel C) (now it : Nat) : Prop where
  reached : w.current_tick_ ≤ now
  fits : prompt → now + tickIntervalNs < 2 ^ 64
  passed : ∀ j < it, ∀ node, (w.wheels_ w.currentBucket)[j]? = some node → now < node.expireTime
  ahead : prompt → ∀ b, ∀ node ∈ w.wheels_ b, node.expireTime ≤ now →
    w.current_tick_ ≤ node.expireTime

/-- The node of the running callback is still there, and waits no more. -/
def InStep (prompt : Prop) (w : TimerWheel C) (t : Service C) : Control → Prop
  | .outside => t.phase = .idle ∧ t.waiting = w.pendingNodes.map TimerNode.timer
  | .inTick now it =>
      t.phase = .seeking now ∧ Passing prompt w now it ∧
        t.waiting = w.pendingNodes.map TimerNode.timer
  | .inCallback now it => ∃ node, (w.wheels_ w.currentBucket)[it]? = some node ∧
      t.phase = .running now node.timer ∧ Passing prompt w now it ∧
      w.pendingNodes.map TimerNode.timer = node.timer ::ₘ t.waiting

structure Follows (prompt : Prop) (s : Reentrant C) (t : Service C) : Prop where
  settled : Settled prompt s.wheel
  nextId : t.nextId = s.wheel.next_timer_id_
  count : t.count = s.expiredCount
  inStep : InStep prompt s.wheel t s.control

theorem settled_new (size : Nat) (hsize : 0 < size) : Settled prompt (new C size hsize) where
  distinct := by
    rw [pendingNodes_new]
    exact Multiset.nodup_zero
  given := by
    rw [pendingNodes_new]
    intro node hnode
    exact absurd hnode (Multiset.notMem_zero node)
  placed := by simp [new]
  aligned := fun _ => Nat.dvd_zero _

theorem follows_new (size : Nat) (hsize : 0 < size) :
    Follows prompt (Reentrant.new C size hsize) (Service.new C) where
  settled := settled_new size hsize
  nextId := rfl
  count := rfl
  inStep := by
    refine ⟨rfl, ?_⟩
    change (0 : Multiset (Timer C)) = (new C size hsize).pendingNodes.map TimerNode.timer
    rw [pendingNodes_new, Multiset.map_zero]

theorem pending_of_getElem? {b : Nat} (hplaced : ∀ b, ∀ node ∈ w.wheels_ b,
    w.bucketOf node.expireTime = b) (h : (w.wheels_ b)[it]? = some node) :
    node ∈ w.pendingNodes := by
  have hmem := List.mem_of_getElem? h
  have hb := w.bucketOf_lt node.expireTime
  rw [hplaced b node hmem] at hb
  exact mem_pendingNodes.mpr ⟨b, hb, hmem⟩

/-! ## Scheduling -/

section Emplace

variable {expireTime : Nat} {callback : Callback C}

theorem emplace_wheels (w : TimerWheel C) (expireTime : Nat) (callback : Callback C) (b : Nat) :
    ∃ more, (w.emplace expireTime callback).2.wheels_ b = w.wheels_ b ++ more ∧
      ∀ node ∈ more, node = ⟨w.next_timer_id_, expireTime, callback⟩ := by
  by_cases hb : b = w.bucketOf expireTime
  · subst hb
    refine ⟨[⟨w.next_timer_id_, expireTime, callback⟩], Function.update_self .., ?_⟩
    intro node hnode
    exact List.mem_singleton.mp hnode
  · refine ⟨[], ?_, by simp⟩
    rw [List.append_nil]
    exact Function.update_of_ne hb ..

theorem Settled.emplace (h : Settled prompt w) (hid : w.next_timer_id_ + 1 < 2 ^ 64) :
    Settled prompt (w.emplace expireTime callback).2 := by
  have hnext : (w.emplace expireTime callback).2.next_timer_id_ = w.next_timer_id_ + 1 :=
    Nat.mod_eq_of_lt hid
  constructor
  · rw [pendingNodes_emplace, Multiset.map_cons, Multiset.nodup_cons]
    refine ⟨?_, h.distinct⟩
    intro hmem
    obtain ⟨node, hnode, heq⟩ := Multiset.mem_map.mp hmem
    have hlt := h.given node hnode
    rw [heq] at hlt
    exact lt_irrefl _ hlt
  · intro node hnode
    rw [pendingNodes_emplace] at hnode
    rw [hnext]
    rcases Multiset.mem_cons.mp hnode with rfl | hold
    · exact Nat.lt_succ_self _
    · exact (h.given node hold).trans (Nat.lt_succ_self _)
  · intro b node hnode
    rcases mem_emplace hnode with hold | ⟨rfl, rfl⟩
    · exact h.placed b node hold
    · rfl
  · exact h.aligned

theorem getElem?_emplace {b : Nat} (h : (w.wheels_ b)[it]? = some node) :
    ((w.emplace expireTime callback).2.wheels_ b)[it]? = some node := by
  obtain ⟨more, hmore, -⟩ := emplace_wheels w expireTime callback b
  obtain ⟨hlt, -⟩ := List.getElem?_eq_some_iff.mp h
  rw [hmore, List.getElem?_append_left hlt, h]

/-- A callback that schedules nothing before `current_tick_` leaves the walk in order. -/
theorem Passing.emplace (h : Passing prompt w now it)
    (hit : it < (w.wheels_ w.currentBucket).length)
    (htime : prompt → expireTime ≤ now → w.current_tick_ ≤ expireTime) :
    Passing prompt (w.emplace expireTime callback).2 now it where
  reached := h.reached
  fits := h.fits
  passed := by
    intro j hj node hnode
    obtain ⟨more, hmore, -⟩ := emplace_wheels w expireTime callback w.currentBucket
    apply h.passed j hj node
    change ((w.emplace expireTime callback).2.wheels_ w.currentBucket)[j]? = some node at hnode
    rwa [hmore, List.getElem?_append_left (hj.trans hit)] at hnode
  ahead := by
    intro hprompt b node hnode hdue
    rcases mem_emplace hnode with hold | ⟨-, rfl⟩
    · exact h.ahead hprompt b node hold hdue
    · exact htime hprompt hdue

/-- Someone other than `tick` is in control. -/
def Reentrant.Asks (s : Reentrant C) : Prop := ∀ now it, s.control ≠ .inTick now it

theorem Follows.asks (h : Follows prompt s t) (hasks : s.Asks) : t.Asks := by
  have hin := h.inStep
  intro time hphase
  cases hc : s.control with
  | outside =>
      rw [hc] at hin
      obtain ⟨hidle, -⟩ := hin
      rw [hidle] at hphase
      cases hphase
  | inTick now it => exact hasks now it hc
  | inCallback now it =>
      rw [hc] at hin
      obtain ⟨node, -, hrunning, -⟩ := hin
      rw [hrunning] at hphase
      cases hphase

theorem Follows.emplace (h : Follows prompt s t) (expireTime : Nat) (callback : Callback C)
    (hid : s.wheel.next_timer_id_ + 1 < 2 ^ 64) (hasks : s.Asks)
    (htime : prompt → ∀ now it, s.control = .inCallback now it → expireTime ≤ now →
      s.wheel.current_tick_ ≤ expireTime) :
    ∃ t', t.Step prompt (.scheduled ⟨(s.wheel.emplace expireTime callback).1, expireTime,
        callback.given⟩) t' ∧
      Follows prompt { s with wheel := (s.wheel.emplace expireTime callback).2 } t' := by
  have hstep : t.Step prompt _ _ :=
    .schedule t expireTime callback.given (h.asks hasks)
  have hgiven : t.nextId = (s.wheel.emplace expireTime callback).1 := h.nextId
  have hpending : (s.wheel.emplace expireTime callback).2.pendingNodes.map TimerNode.timer =
      ⟨t.nextId, expireTime, callback.given⟩ ::ₘ s.wheel.pendingNodes.map TimerNode.timer := by
    rw [pendingNodes_emplace, Multiset.map_cons, h.nextId]
    rfl
  rw [← hgiven]
  refine ⟨_, hstep, h.settled.emplace hid, ?_, h.count, ?_⟩
  · change t.nextId + 1 = wrap (s.wheel.next_timer_id_ + 1)
    rw [h.nextId]
    exact (Nat.mod_eq_of_lt hid).symm
  · have hin := h.inStep
    change InStep prompt _ _ s.control
    cases hc : s.control with
    | outside =>
        rw [hc] at hin
        refine ⟨hin.1, ?_⟩
        rw [hpending, ← hin.2]
    | inTick now it => exact absurd hc (hasks now it)
    | inCallback now it =>
        rw [hc] at hin
        obtain ⟨node, hnode, hphase, hpassing, hwaiting⟩ := hin
        obtain ⟨hlt, -⟩ := List.getElem?_eq_some_iff.mp hnode
        refine ⟨node, getElem?_emplace hnode, hphase, hpassing.emplace hlt
          fun hprompt => htime hprompt now it hc, ?_⟩
        rw [hpending, hwaiting, Multiset.cons_swap]

end Emplace

def Reentrant.running (s : Reentrant C) : Option (TimerNode C) :=
  match s.control with
  | .inCallback _ it => (s.wheel.wheels_ s.bucket)[it]?
  | _ => none

/-! ## Cancelling -/

def erased (w : TimerWheel C) (b i : Nat) : TimerWheel C :=
  { w with wheels_ := Function.update w.wheels_ b ((w.wheels_ b).eraseIdx i) }

section Erase

variable {b i timerId : Nat}

theorem erased_here (w : TimerWheel C) (b i : Nat) :
    (w.erased b i).wheels_ b = (w.wheels_ b).eraseIdx i := Function.update_self ..

theorem erased_elsewhere {b' : Nat} (h : b' ≠ b) : (w.erased b i).wheels_ b' = w.wheels_ b' :=
  Function.update_of_ne h ..

theorem mem_of_mem_erased {b' : Nat} (h : node ∈ (w.erased b i).wheels_ b') :
    node ∈ w.wheels_ b' := by
  by_cases hb : b' = b
  · subst hb
    rw [erased_here] at h
    exact List.mem_of_mem_eraseIdx h
  · rwa [erased_elsewhere hb] at h

theorem pendingNodes_erased (hb : b < w.wheel_size_) (h : (w.wheels_ b)[i]? = some node) :
    w.pendingNodes = node ::ₘ (w.erased b i).pendingNodes := by
  obtain ⟨hlt, hget⟩ := List.getElem?_eq_some_iff.mp h
  have hsplit : w.wheels_ b = (w.wheels_ b).take i ++ node :: (w.wheels_ b).drop (i + 1) := by
    rw [← hget, List.cons_getElem_drop_succ, List.take_append_drop]
  have hremove := Buckets.gathered_remove hb hsplit
  rw [← List.eraseIdx_eq_take_drop_succ] at hremove
  exact hremove

theorem cancel_place (w : TimerWheel C) (timerId : Nat) :
    (w.place timerId = none ∧ w.cancel timerId = (false, w) ∧
      ∀ node ∈ w.pendingNodes, node.id ≠ timerId) ∨
    ∃ b i node, w.place timerId = some (b, i) ∧ b < w.wheel_size_ ∧
      (w.wheels_ b)[i]? = some node ∧ node.id = timerId ∧
      w.cancel timerId = (true, w.erased b i) := by
  unfold place cancel
  cases hfind : (List.range w.wheel_size_).find? fun b =>
      (w.wheels_ b).any fun n => n.id == timerId with
  | none =>
      refine .inl ⟨rfl, rfl, ?_⟩
      intro node hnode hid
      obtain ⟨b, hb, hmem⟩ := mem_pendingNodes.mp hnode
      apply List.find?_eq_none.mp hfind b (List.mem_range.mpr hb)
      rw [List.any_eq_true]
      exact ⟨node, hmem, beq_iff_eq.mpr hid⟩
  | some b =>
      right
      have hany := List.find?_some hfind
      obtain ⟨first, hfirst, hid⟩ := List.any_eq_true.mp hany
      have hexists : ∃ n, n ∈ w.wheels_ b ∧ (n.id == timerId) = true := ⟨first, hfirst, hid⟩
      have hlt := List.findIdx_lt_length_of_exists hexists
      refine ⟨b, _, _, rfl, List.mem_range.mp (List.mem_of_find?_eq_some hfind),
        List.getElem?_eq_getElem hlt, ?_, ?_⟩
      · have hfound := List.findIdx_getElem (w := hlt)
        exact beq_iff_eq.mp hfound
      · dsimp only
        rw [List.eraseP_eq_eraseIdx, List.findIdx?_eq_some_of_exists hexists]
        rfl

theorem Settled.erased (h : Settled prompt w) (hb : b < w.wheel_size_)
    (hnode : (w.wheels_ b)[i]? = some node) : Settled prompt (w.erased b i) := by
  have hpending := pendingNodes_erased hb hnode
  constructor
  · have hdistinct := h.distinct
    rw [hpending, Multiset.map_cons] at hdistinct
    exact (Multiset.nodup_cons.mp hdistinct).2
  · intro other hother
    apply h.given
    rw [hpending]
    exact Multiset.mem_cons_of_mem hother
  · intro b' other hother
    exact h.placed b' other (mem_of_mem_erased hother)
  · exact h.aligned

theorem Passing.erase_after (h : Passing prompt w now it) (hafter : b ≠ w.currentBucket ∨ it ≤ i) :
    Passing prompt (w.erased b i) now it where
  reached := h.reached
  fits := h.fits
  passed := by
    intro j hj other hother
    apply h.passed j hj other
    change ((w.erased b i).wheels_ w.currentBucket)[j]? = some other at hother
    by_cases hb : w.currentBucket = b
    · subst hb
      have hle : it ≤ i := hafter.resolve_left fun hne => hne rfl
      rwa [erased_here, List.getElem?_eraseIdx, if_pos (by omega)] at hother
    · rwa [erased_elsewhere hb] at hother
  ahead := fun hprompt b' other hother => h.ahead hprompt b' other (mem_of_mem_erased hother)

theorem Passing.erase_before (h : Passing prompt w now it) (hi : i < it) :
    Passing prompt (w.erased w.currentBucket i) now (it - 1) where
  reached := h.reached
  fits := h.fits
  passed := by
    intro j hj other hother
    change ((w.erased w.currentBucket i).wheels_ w.currentBucket)[j]? = some other at hother
    rw [erased_here, List.getElem?_eraseIdx] at hother
    split_ifs at hother with hlt
    · exact h.passed j (by omega) other hother
    · exact h.passed (j + 1) (by omega) other hother
  ahead := fun hprompt b' other hother => h.ahead hprompt b' other (mem_of_mem_erased hother)

theorem Passing.afterErase (h : Passing prompt w now it) {running : TimerNode C}
    (hrunning : (w.wheels_ w.currentBucket)[it]? = some running)
    (hother : b ≠ w.currentBucket ∨ i ≠ it) :
    ∃ it', (Control.inCallback now it).afterErase w.currentBucket (some (b, i)) =
        some (.inCallback now it') ∧ Passing prompt (w.erased b i) now it' ∧
      ((w.erased b i).wheels_ w.currentBucket)[it']? = some running := by
  by_cases hafter : b ≠ w.currentBucket ∨ it < i
  · refine ⟨it, if_pos hafter, h.erase_after (hafter.imp_right Nat.le_of_lt), ?_⟩
    by_cases hb : w.currentBucket = b
    · subst hb
      have hlt : it < i := hafter.resolve_left fun hne => hne rfl
      rw [erased_here, List.getElem?_eraseIdx, if_pos hlt, hrunning]
    · rw [erased_elsewhere hb, hrunning]
  · obtain ⟨hb, hle⟩ := not_or.mp hafter
    obtain rfl := not_not.mp hb
    have hne : i ≠ it := hother.resolve_left hb
    have hlt : i < it := by omega
    refine ⟨it - 1, ?_, h.erase_before hlt, ?_⟩
    · exact (if_neg hafter).trans (if_neg hne)
    · rw [erased_here, List.getElem?_eraseIdx, if_neg (by omega), Nat.sub_add_cancel (by omega),
        hrunning]

theorem Follows.waiting_ne (h : Follows prompt s t) (hasks : s.Asks)
    (hnone : ∀ node ∈ s.wheel.pendingNodes, node.id ≠ timerId) :
    ∀ timer ∈ t.waiting, timer.id ≠ timerId := by
  have hpending : ∀ timer ∈ s.wheel.pendingNodes.map TimerNode.timer, timer.id ≠ timerId := by
    intro timer htimer
    obtain ⟨node, hnode, rfl⟩ := Multiset.mem_map.mp htimer
    exact hnone node hnode
  have hin := h.inStep
  intro timer htimer
  apply hpending
  cases hc : s.control with
  | outside =>
      rw [hc] at hin
      rwa [← hin.2]
  | inTick now it => exact absurd hc (hasks now it)
  | inCallback now it =>
      rw [hc] at hin
      obtain ⟨node, -, -, -, hwaiting⟩ := hin
      rw [hwaiting]
      exact Multiset.mem_cons_of_mem htimer

theorem waiting_of_erased {running : TimerNode C} {waiting : Multiset (Timer C)}
    (hpending : w.pendingNodes = node ::ₘ (w.erased b i).pendingNodes)
    (hstays : running ∈ (w.erased b i).pendingNodes)
    (hwaiting : w.pendingNodes.map TimerNode.timer = running.timer ::ₘ waiting) :
    ∃ rest, waiting = node.timer ::ₘ rest ∧
      (w.erased b i).pendingNodes.map TimerNode.timer = running.timer ::ₘ rest := by
  obtain ⟨others, hothers⟩ := Multiset.exists_cons_of_mem hstays
  refine ⟨others.map TimerNode.timer, ?_, ?_⟩
  · rw [hpending, hothers, Multiset.map_cons, Multiset.map_cons, Multiset.cons_swap] at hwaiting
    exact ((Multiset.cons_inj_right _).mp hwaiting).symm
  · rw [hothers, Multiset.map_cons]

theorem request_cancel (s : Reentrant C) (timerId : Nat) : s.request (.cancel timerId) =
    (s.control.afterErase s.bucket (s.wheel.place timerId)).map fun control =>
      (.cancelled timerId (s.wheel.cancel timerId).1,
        { s with wheel := (s.wheel.cancel timerId).2, control }) := rfl

/-- A cancel call that is defined is seen by the service. -/
theorem Follows.cancel (h : Follows prompt s t) (hasks : s.Asks)
    {event : Event C} (hrequest : s.request (.cancel timerId) = some (event, s')) :
    ∃ t', t.Step prompt event t' ∧ Follows prompt s' t' := by
  have hservice : t.Asks := h.asks hasks
  rw [request_cancel] at hrequest
  rcases cancel_place s.wheel timerId with ⟨hplace, hcancel, hnone⟩ |
      ⟨b, i, node, hplace, hb, hnode, rfl, hcancel⟩
  · rw [hcancel, hplace] at hrequest
    have hsame : s.control.afterErase s.bucket none = some s.control := by
      cases s.control <;> rfl
    dsimp only at hrequest
    rw [hsame] at hrequest
    obtain ⟨rfl, rfl⟩ := Prod.mk.inj (Option.some.inj hrequest)
    exact ⟨t, .miss t timerId hservice (h.waiting_ne hasks hnone), h⟩
  · rw [hcancel, hplace] at hrequest
    obtain ⟨control, hafter, heq⟩ := Option.map_eq_some_iff.mp hrequest
    obtain ⟨rfl, rfl⟩ := Prod.mk.inj heq
    have hpending := pendingNodes_erased hb hnode
    have hsettled := h.settled.erased hb hnode
    have hin := h.inStep
    cases hc : s.control with
    | outside =>
        rw [hc] at hin hafter
        obtain rfl := Option.some.inj hafter
        have hwaits : t.waiting = node.timer ::ₘ
            (s.wheel.erased b i).pendingNodes.map TimerNode.timer := by
          rw [hin.2, hpending, Multiset.map_cons]
        exact ⟨_, .cancel t node.timer _ hservice hwaits, hsettled, h.nextId, h.count, hin.1, rfl⟩
    | inTick now it => exact absurd hc (hasks now it)
    | inCallback now it =>
        rw [hc] at hin hafter
        obtain ⟨running, hrunning, hphase, hpassing, hwaiting⟩ := hin
        have hother : b ≠ s.wheel.currentBucket ∨ i ≠ it := by
          by_contra hself
          obtain ⟨hb', hi⟩ := not_or.mp hself
          have hundefined : (Control.inCallback now it).afterErase s.bucket (some (b, i)) = none :=
            (if_neg (by
              rintro (hne | hlt)
              · exact hb' hne
              · omega)).trans (if_pos (not_not.mp hi))
          rw [hundefined] at hafter
          cases hafter
        obtain ⟨it', hit', hpassing', hrunning'⟩ := hpassing.afterErase hrunning hother
        obtain rfl := Option.some.inj (hit'.symm.trans hafter)
        obtain ⟨rest, hwaits, hpending'⟩ :=
          waiting_of_erased hpending (pending_of_getElem? hsettled.placed hrunning') hwaiting
        exact ⟨_, .cancel t node.timer rest hservice hwaits, hsettled, h.nextId, h.count,
          running, hrunning', hphase, hpassing', hpending'⟩

end Erase

theorem Reentrant.running_some (h : s.running = some node) :
    ∃ now it, s.control = .inCallback now it ∧ (s.wheel.wheels_ s.bucket)[it]? = some node := by
  unfold Reentrant.running at h
  cases hc : s.control with
  | outside =>
      rw [hc] at h
      cases h
  | inTick now it =>
      rw [hc] at h
      cases h
  | inCallback now it =>
      rw [hc] at h
      exact ⟨now, it, rfl, h⟩

/-- In a callback, the one cancel that is not defined is that of its own timer. -/
theorem Follows.cancel_undefined (h : Follows prompt s t) (hrunning : s.running = some node)
    (timerId : Nat) : s.step (.request (.cancel timerId)) = none ↔ timerId = node.id := by
  obtain ⟨now, it, hc, hnode⟩ := Reentrant.running_some hrunning
  have hin := h.inStep
  rw [hc] at hin
  obtain ⟨other, hother, -, hpassing, -⟩ := hin
  obtain rfl := Option.some.inj (hnode.symm.trans hother)
  have hrequest : s.step (.request (.cancel timerId)) = none ↔
      (Control.inCallback now it).afterErase s.bucket (s.wheel.place timerId) = none := by
    rw [Reentrant.step, hc]
    dsimp only
    rw [Option.map_eq_none_iff, request_cancel, Option.map_eq_none_iff, hc]
  rw [hrequest]
  rcases cancel_place s.wheel timerId with ⟨hplace, -, hnone⟩ |
      ⟨b, i, found, hplace, hb, hfound, rfl, -⟩
  · rw [hplace]
    constructor
    · intro hsome
      cases hsome
    · rintro rfl
      exact absurd rfl (hnone node (pending_of_getElem? h.settled.placed hnode))
  · rw [hplace]
    by_cases hself : b = s.wheel.currentBucket ∧ i = it
    · obtain ⟨rfl, rfl⟩ := hself
      obtain rfl := Option.some.inj (hfound.symm.trans hnode)
      constructor
      · intro _
        rfl
      · intro _
        have hnot : ¬ (s.wheel.currentBucket ≠ s.bucket ∨ i < i) := by
          rintro (hne | hlt)
          · exact hne rfl
          · exact lt_irrefl _ hlt
        exact (if_neg hnot).trans (if_pos rfl)
    · obtain ⟨it', hit', -, hstays⟩ :=
        hpassing.afterErase hnode (not_and_or.mp hself)
      have hdistinct := h.settled.distinct
      rw [pendingNodes_erased hb hfound, Multiset.map_cons, Multiset.nodup_cons] at hdistinct
      have hmem := pending_of_getElem? (h.settled.erased hb hfound).placed hstays
      constructor
      · intro hundefined
        rw [show (Control.inCallback now it).afterErase s.bucket (some (b, i)) = _ from hit']
          at hundefined
        cases hundefined
      · intro hid
        exact absurd (Multiset.mem_map.mpr ⟨node, hmem, hid.symm⟩) hdistinct.1

end UltraHft.Core.TimerWheel
