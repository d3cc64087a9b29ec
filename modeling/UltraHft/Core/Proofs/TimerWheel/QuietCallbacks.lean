import UltraHft.Core.Proofs.TimerWheel.BusyCallbacks

/-!
# Callbacks that leave the wheel alone

Taken step by step, with every callback returning at once, `tick` does what it does in
one piece.
-/

namespace UltraHft.Core.TimerWheel

open UltraHft.Lib
open TimerQueue (Timer)
open TimerService (Event)

variable {C : Type*} {w : TimerWheel C} {s s' : Reentrant C} {u r : Ticking C}
  {now it n fuel b : Nat} {node : TimerNode C}

/-- Only `tick` itself takes steps, and callbacks return. -/
def AsksNothing (steps : List (WheelStep C)) : Prop :=
  ∀ step ∈ steps, step = .goOn ∨ step = .leave

def Ticking.paused (u : Ticking C) (control : Control) : Reentrant C :=
  ⟨u.wheel, control, u.expiredCount⟩

def Calls (s : Reentrant C) (called : List (Timer C)) (s' : Reentrant C) : Prop :=
  ∃ steps events, AsksNothing steps ∧ s.run steps = some (events, s') ∧
    TimerService.calledIn events = called

theorem Calls.refl (s : Reentrant C) : Calls s [] s := ⟨[], [], by simp [AsksNothing], rfl, rfl⟩

theorem Calls.cons {step : WheelStep C} {result : List (Event C) × Reentrant C}
    {called : List (Timer C)} (hquiet : step = .goOn ∨ step = .leave)
    (hstep : s.step step = some result) (h : Calls result.2 called s') :
    Calls s (TimerService.calledIn result.1 ++ called) s' := by
  obtain ⟨steps, more, hall, hrun, rfl⟩ := h
  refine ⟨step :: steps, result.1 ++ more, List.forall_mem_cons.mpr ⟨hquiet, hall⟩, ?_,
    TimerService.calledIn_append result.1 more⟩
  rw [Reentrant.run, hstep]
  dsimp only [Option.bind_eq_bind, Option.bind_some]
  rw [hrun]
  rfl

theorem calledIn_rearm (s : Reentrant C) (callback : Callback C) :
    TimerService.calledIn ((s.rearm callback).1 ++ [.returned]) = [] := by
  cases callback <;> rfl

theorem calledIn_enter (s : Reentrant C) (now : Nat) :
    TimerService.calledIn (s.enter now).1 = [] := by
  unfold Reentrant.enter
  split_ifs <;> rfl

/-! ## The walk over a bucket -/

theorem nextBucket_paused (u : Ticking C) (control : Control) :
    (u.paused control).nextBucket = u.advance.paused control := by
  rw [Reentrant.nextBucket, Ticking.advance]
  rfl

theorem goOn_inTick (u : Ticking C) (now it : Nat) : (u.paused (.inTick now it)).step .goOn =
    match (u.wheel.wheels_ u.wheel.currentBucket)[it]? with
    | none => some ((u.advance.paused (.inTick now it)).enter now)
    | some node =>
        if node.expireTime ≤ now then some ([.called node.timer], u.paused (.inCallback now it))
        else some ([], u.paused (.inTick now (it + 1))) := by
  rw [← nextBucket_paused]
  rfl

theorem leave_inCallback (hnode : (u.wheel.wheels_ u.wheel.currentBucket)[it]? = some node) :
    (u.paused (.inCallback now it)).step .leave =
      some (((u.paused (.inCallback now it)).rearm node.callback).1 ++ [.returned],
        (fireAt u u.wheel.currentBucket it node).paused (.inTick now it)) := by
  have hread : ((u.paused (.inCallback now it)).wheel.wheels_
      (u.paused (.inCallback now it)).bucket)[it]? = some node := hnode
  rw [Reentrant.step]
  change Option.map _ ((u.paused (.inCallback now it)).wheel.wheels_
      (u.paused (.inCallback now it)).bucket)[it]? = _
  rw [hread, Option.map_some]
  cases hcb : node.callback <;> simp [Reentrant.rearm, fireAt, Ticking.paused, hcb, invoke,
    Reentrant.afterSchedule, Reentrant.bucket, currentBucket]

theorem Calls.fire (hnode : (u.wheel.wheels_ u.wheel.currentBucket)[it]? = some node)
    (hdue : node.expireTime ≤ now) {called : List (Timer C)}
    (h : Calls ((fireAt u u.wheel.currentBucket it node).paused (.inTick now it)) called s') :
    Calls (u.paused (.inTick now it)) (node.timer :: called) s' := by
  have hcall : (u.paused (.inTick now it)).step .goOn =
      some ([.called node.timer], u.paused (.inCallback now it)) := by
    rw [goOn_inTick, hnode]
    exact if_pos hdue
  have hrest := Calls.cons (.inr rfl) (leave_inCallback hnode) h
  rw [calledIn_rearm, List.nil_append] at hrest
  exact Calls.cons (.inl rfl) hcall hrest

theorem Calls.skip (hnode : (u.wheel.wheels_ u.wheel.currentBucket)[it]? = some node)
    (hdue : ¬ node.expireTime ≤ now) {called : List (Timer C)}
    (h : Calls (u.paused (.inTick now (it + 1))) called s') :
    Calls (u.paused (.inTick now it)) called s' := by
  have hstep : (u.paused (.inTick now it)).step .goOn =
      some ([], u.paused (.inTick now (it + 1))) := by
    rw [goOn_inTick, hnode]
    exact if_neg hdue
  exact Calls.cons (.inl rfl) hstep h

theorem Calls.walk (hb : u.wheel.currentBucket = b)
    (hrun : Loop.run (bucketBody now b) n (u, it) = some r) {called : List (Timer C)}
    (h : ∀ it', Calls ((r.advance.paused (.inTick now it')).enter now).2 called s') :
    ∃ nodes, r.fired = u.fired ++ nodes ∧
      Calls (u.paused (.inTick now it)) (nodes.map TimerNode.timer ++ called) s' := by
  -- on the turns of the inner loop; a node that is called takes two steps for one turn
  induction n generalizing u it with
  | zero => cases hrun
  | succ n ih =>
      cases hnode : (u.wheel.wheels_ u.wheel.currentBucket)[it]? with
      | none =>
          have hbody : bucketBody now b (u, it) = some (.inr u) := by
            rw [bucketBody, ← hb, hnode]
          rw [Loop.run_succ_leave hbody] at hrun
          obtain rfl := Option.some.inj hrun
          refine ⟨[], (List.append_nil _).symm, ?_⟩
          have hstep : (u.paused (.inTick now it)).step .goOn =
              some ((u.advance.paused (.inTick now it)).enter now) := by
            rw [goOn_inTick, hnode]
          have hcalls := Calls.cons (.inl rfl) hstep (h it)
          rwa [calledIn_enter] at hcalls
      | some node =>
          by_cases hdue : node.expireTime ≤ now
          · have hbody : bucketBody now b (u, it) =
                some (.inl (fireAt u u.wheel.currentBucket it node, it)) := by
              rw [bucketBody, ← hb, hnode]
              exact if_pos hdue
            have hb' : (fireAt u u.wheel.currentBucket it node).wheel.currentBucket = b := by
              rw [currentBucket, bucketOf, fireAt_size, fireAt_tick]
              exact hb
            rw [Loop.run_succ_next hbody] at hrun
            obtain ⟨nodes, hfired, hcalls⟩ := ih hb' hrun
            refine ⟨node :: nodes, ?_, hcalls.fire hnode hdue⟩
            rw [hfired]
            exact List.append_assoc ..
          · have hbody : bucketBody now b (u, it) = some (.inl (u, it + 1)) := by
              rw [bucketBody, ← hb, hnode]
              exact if_neg hdue
            rw [Loop.run_succ_next hbody] at hrun
            obtain ⟨nodes, hfired, hcalls⟩ := ih hb hrun
            exact ⟨nodes, hfired, hcalls.skip hnode hdue⟩

/-! ## A whole tick -/

theorem Calls.visits (hrun : Loop.run (tickBody fuel now) n u = some r) :
    ∃ nodes, r.fired = u.fired ++ nodes ∧ ∀ control,
      Calls ((u.paused control).enter now).2 (nodes.map TimerNode.timer) (r.paused .outside) := by
  induction n generalizing u with
  | zero => cases hrun
  | succ n ih =>
      by_cases hle : u.wheel.current_tick_ ≤ now
      · have henter : ∀ control, ((u.paused control).enter now).2 = u.paused (.inTick now 0) := by
          intro control
          rw [Reentrant.enter, if_pos (show (u.paused control).wheel.current_tick_ ≤ now from hle)]
          rfl
        have hbody := tickBody_reached (n := fuel) hle
        cases hwalk : Loop.run (bucketBody now u.wheel.currentBucket) fuel (u, 0) with
        | none =>
            rw [hwalk] at hbody
            rw [Loop.run_succ_stuck hbody] at hrun
            cases hrun
        | some r₁ =>
            rw [hwalk] at hbody
            rw [Loop.run_succ_next hbody] at hrun
            obtain ⟨later, hlater, hrest⟩ := ih hrun
            obtain ⟨nodes, hfired, hcalls⟩ :=
              Calls.walk rfl hwalk fun it' => hrest (.inTick now it')
            refine ⟨nodes ++ later, ?_, ?_⟩
            · rw [hlater, advance_fired, hfired, List.append_assoc]
            · intro control
              rw [henter, List.map_append]
              exact hcalls
      · rw [Loop.run_succ_leave (tickBody_past hle)] at hrun
        obtain rfl := Option.some.inj hrun
        refine ⟨[], (List.append_nil _).symm, ?_⟩
        intro control
        rw [Reentrant.enter, if_neg (show ¬ (u.paused control).wheel.current_tick_ ≤ now from hle)]
        exact Calls.refl _

/-- A tick whose callbacks ask for nothing is `tick`: the same wheel, the same count, the
same timers in the same order. -/
theorem tick_of_quiet (h : tick fuel w now = some r) (count : Nat) : ∃ steps events,
    AsksNothing steps ∧ Reentrant.run ⟨w, .outside, count⟩ (.tick now :: steps) =
      some (events, r.paused .outside) ∧
    TimerService.calledIn events = r.fired.map TimerNode.timer := by
  obtain ⟨nodes, hfired, hcalls⟩ := Calls.visits h
  obtain ⟨steps, events, hquiet, hrun, hcalled⟩ := hcalls .outside
  let entered := Reentrant.enter ⟨w, .outside, 0⟩ now
  have hstep : Reentrant.step ⟨w, .outside, count⟩ (.tick now) =
      some (.begins now :: entered.1, entered.2) := rfl
  have hrest : entered.2.run steps = some (events, r.paused .outside) := hrun
  refine ⟨steps, .begins now :: entered.1 ++ events, hquiet, ?_, ?_⟩
  · rw [Reentrant.run, hstep]
    dsimp only [Option.bind_eq_bind, Option.bind_some]
    rw [hrest]
    rfl
  · have hbegins : TimerService.calledIn (.begins now :: entered.1) = [] := calledIn_enter _ now
    rw [TimerService.calledIn_append, hbegins, hcalled, hfired]
    rfl

end UltraHft.Core.TimerWheel
