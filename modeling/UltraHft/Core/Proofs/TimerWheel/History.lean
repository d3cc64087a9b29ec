import UltraHft.Core.Proofs.TimerWheel.PendingNodes
import UltraHft.Core.Proofs.TimerWheel.Timely

/-!
# What becomes of the timers

A wheel together with what its clients have seen of it: the timers scheduled,
those whose callbacks have run, and those cancelled.  Without recurring timers
every scheduled timer is pending until it fires or is cancelled, and it does one
of the two at most.
-/

namespace UltraHft.Core

open UltraHft.Lib

inductive WheelOp (C : Type*) where
  | schedule (durationNs : Nat) (callback : C)
  | scheduleAt (absoluteTimeNs : Nat) (callback : C)
  | scheduleRecurring (intervalNs : Nat) (callback : C)
  | cancel (timerId : Nat)
  | tick (currentTimeNs : Nat)
  | clear

inductive WheelAnswer where
  | scheduled (timerId : Nat)
  | cancelled (found : Bool)
  | expired (count : Nat)
  | cleared
  deriving DecidableEq, Repr

/-- A wheel and its history: what was scheduled, which callbacks have run in the
tick to which time, and which ids were cancelled. -/
structure Watched (C : Type*) where
  wheel : TimerWheel C
  scheduled : List (TimerNode C)
  fired : List (Nat × TimerNode C)
  cancelled : List Nat

namespace Watched

variable {C : Type*} {s s' : Watched C} {now size : Nat} {answer : WheelAnswer}

def new (C : Type*) (size : Nat) (hsize : 0 < size) : Watched C where
  wheel := TimerWheel.new C size hsize
  scheduled := []
  fired := []
  cancelled := []

/-- The outcome `r` of a call that scheduled a callback. -/
def afterSchedule (s : Watched C) (r : Nat × TimerWheel C) (expireTime : Nat)
    (callback : Callback C) : WheelAnswer × Watched C :=
  (.scheduled r.1, { s with
    wheel := r.2
    scheduled := s.scheduled ++ [⟨r.1, expireTime, callback⟩] })

def afterCancel (s : Watched C) (r : Bool × TimerWheel C) (timerId : Nat) :
    WheelAnswer × Watched C :=
  (.cancelled r.1, { s with
    wheel := r.2
    cancelled := if r.1 then s.cancelled ++ [timerId] else s.cancelled })

def afterTick (s : Watched C) (r : TimerWheel.Ticking C) (now : Nat) : WheelAnswer × Watched C :=
  (.expired r.expiredCount, { s with
    wheel := r.wheel
    fired := s.fired ++ r.fired.map fun node => (now, node) })

/-- An operation, with its answer; a tick that never comes back has none. -/
noncomputable def perform (s : Watched C) : WheelOp C → Option (WheelAnswer × Watched C)
  | .schedule d callback =>
      some (s.afterSchedule (s.wheel.schedule d callback) (wrap (s.wheel.current_tick_ + d))
        (.user callback))
  | .scheduleAt time callback =>
      some (s.afterSchedule (s.wheel.scheduleAt time callback) time (.user callback))
  | .scheduleRecurring i callback =>
      some (s.afterSchedule (s.wheel.scheduleRecurring i callback)
        (wrap (s.wheel.current_tick_ + i)) (.recurring s.wheel.next_timer_id_ i callback))
  | .cancel timerId => some (s.afterCancel (s.wheel.cancel timerId) timerId)
  | .tick now =>
      (Loop.outcome fun fuel => s.wheel.tick fuel now).map fun r => s.afterTick r now
  | .clear => some (.cleared, { s with wheel := s.wheel.clear })

noncomputable def exec (s : Watched C) (ops : List (WheelOp C)) : Option (Watched C) :=
  Runs.exec (fun s op => (perform s op).map Prod.snd) s ops

theorem perform_tick_eq_some : s.perform (.tick now) = some (answer, s') ↔
    ∃ n r, s.wheel.tick n now = some r ∧ s.afterTick r now = (answer, s') := by
  rw [perform, Option.map_eq_some_iff]
  simp only [Loop.outcome_eq_some fun _ _ _ hnm => TimerWheel.tick_mono hnm]
  constructor
  · intro ⟨r, ⟨n, hr⟩, heq⟩
    exact ⟨n, r, hr, heq⟩
  · intro ⟨n, r, hr, heq⟩
    exact ⟨r, ⟨n, hr⟩, heq⟩

/-- `perform` with bounded loops, which can be evaluated. -/
def performIn (fuel : Nat) (s : Watched C) : WheelOp C → Option (WheelAnswer × Watched C)
  | .schedule d callback =>
      some (s.afterSchedule (s.wheel.schedule d callback) (wrap (s.wheel.current_tick_ + d))
        (.user callback))
  | .scheduleAt time callback =>
      some (s.afterSchedule (s.wheel.scheduleAt time callback) time (.user callback))
  | .scheduleRecurring i callback =>
      some (s.afterSchedule (s.wheel.scheduleRecurring i callback)
        (wrap (s.wheel.current_tick_ + i)) (.recurring s.wheel.next_timer_id_ i callback))
  | .cancel timerId => some (s.afterCancel (s.wheel.cancel timerId) timerId)
  | .tick now => (s.wheel.tick fuel now).map fun r => s.afterTick r now
  | .clear => some (.cleared, { s with wheel := s.wheel.clear })

def execIn (fuel : Nat) (s : Watched C) (ops : List (WheelOp C)) : Option (Watched C) :=
  Runs.exec (fun s op => (performIn fuel s op).map Prod.snd) s ops

theorem perform_of_performIn {fuel : Nat} {op : WheelOp C}
    (h : s.performIn fuel op = some (answer, s')) : s.perform op = some (answer, s') := by
  cases op with
  | schedule d callback => exact h
  | scheduleAt time callback => exact h
  | scheduleRecurring i callback => exact h
  | cancel timerId => exact h
  | tick now =>
      obtain ⟨r, hr, heq⟩ := Option.map_eq_some_iff.mp h
      exact perform_tick_eq_some.mpr ⟨fuel, r, hr, heq⟩
  | clear => exact h

theorem exec_of_execIn {fuel : Nat} {ops : List (WheelOp C)}
    (h : s.execIn fuel ops = some s') : s.exec ops = some s' := by
  induction ops generalizing s with
  | nil => exact h
  | cons op ops ih =>
      obtain ⟨t, hstep, hrest⟩ := Option.bind_eq_some_iff.mp h
      obtain ⟨⟨answer, t'⟩, hop, rfl⟩ := Option.map_eq_some_iff.mp hstep
      have hlater := ih hrest
      rw [exec, Runs.exec, perform_of_performIn hop]
      exact hlater

def schedules : WheelOp C → Bool
  | .schedule .. | .scheduleAt .. | .scheduleRecurring .. => true
  | _ => false

def Simple : WheelOp C → Prop
  | .schedule .. | .scheduleAt .. | .cancel _ => True
  | .tick now => now + TimerWheel.tickIntervalNs < 2 ^ 64
  | .scheduleRecurring .. | .clear => False

/-! ## What should hold -/

/-- Every scheduled timer is pending, fired or cancelled, once and in one of these
ways only, under an id of its own; and no timer fires too early. -/
structure Accounted (s : Watched C) : Prop where
  distinct : (s.scheduled.map TimerNode.id).Nodup
  oneState : ∀ node ∈ s.scheduled,
    (s.wheel.pendingNodes.map TimerNode.id).count node.id +
      (s.fired.map fun f => f.2.id).count node.id + s.cancelled.count node.id = 1
  pending : ∀ node ∈ s.wheel.pendingNodes, node ∈ s.scheduled
  fired : ∀ f ∈ s.fired, f.2 ∈ s.scheduled ∧ f.2.expireTime ≤ f.1
  cancelled : ∀ timerId ∈ s.cancelled, ∃ node ∈ s.scheduled, node.id = timerId
  count : s.wheel.pendingCount + s.fired.length + s.cancelled.length = s.scheduled.length

/-- The history only grows, so that a timer that has fired or was cancelled stays
so. -/
structure Grows (s s' : Watched C) : Prop where
  scheduled : s.scheduled <+: s'.scheduled
  fired : s.fired <+: s'.fired
  cancelled : s.cancelled <+: s'.cancelled

def Answers (s : Watched C) (answer : WheelAnswer) (s' : Watched C) : WheelOp C → Prop
  | .schedule .. | .scheduleAt .. | .scheduleRecurring .. =>
      ∃ node, s'.scheduled = s.scheduled ++ [node] ∧ answer = .scheduled node.id
  | .cancel timerId => ∃ found, answer = .cancelled found ∧
      (found = true ↔ ∃ node ∈ s.wheel.pendingNodes, node.id = timerId)
  | .tick now => ∃ ran : List (TimerNode C),
      s'.fired = s.fired ++ ran.map (fun node => (now, node)) ∧ answer = .expired ran.length
  | .clear => answer = .cleared

end Watched

/-! ## A tick over one-shot timers -/

namespace TimerWheel

variable {C : Type*} {w : TimerWheel C} {now n : Nat} {s s' r : Ticking C} {node : TimerNode C}

theorem offspring_plain (hnode : interval node = none) : w.offspring node = [] := by
  unfold interval at hnode
  unfold offspring
  cases hcb : node.callback with
  | user callback => rfl
  | recurring id i callback =>
      rw [hcb] at hnode
      cases hnode

/-- A tick to `now` that began with `w` has moved nodes from the buckets to the
callbacks that have run, and done nothing else. -/
structure Moves (w : TimerWheel C) (now : Nat) (s : Ticking C) : Prop where
  moved : s.wheel.pendingNodes + ↑s.fired = w.pendingNodes
  due : ∀ node ∈ s.fired, node.expireTime ≤ now
  count : s.expiredCount = s.fired.length
  nextId : s.wheel.next_timer_id_ = w.next_timer_id_

theorem Moves.fire (hplain : ∀ node ∈ w.pendingNodes, interval node = none) (h : Moves w now s)
    (hf : Fires now s node s') : Moves w now s' := by
  have hmem : node ∈ w.pendingNodes := by
    rw [← h.moved, Multiset.mem_add]
    exact .inl hf.mem
  have hnode := hplain node hmem
  have hpending := hf.pending
  rw [offspring_plain hnode, Multiset.coe_nil, add_zero] at hpending
  constructor
  case moved =>
    calc s'.wheel.pendingNodes + ↑s'.fired
        = s'.wheel.pendingNodes + node ::ₘ ↑s.fired := by rw [hf.fired, Buckets.coe_concat]
      _ = node ::ₘ s'.wheel.pendingNodes + ↑s.fired := by
          rw [Multiset.add_cons, Multiset.cons_add]
      _ = s.wheel.pendingNodes + ↑s.fired := by rw [hpending]
      _ = w.pendingNodes := h.moved
  case due =>
    intro m hm
    rw [hf.fired, List.mem_append, List.mem_singleton] at hm
    rcases hm with hm | rfl
    · exact h.due m hm
    · exact hf.due
  case count =>
    rw [hf.count, hf.fired, List.length_append, h.count, List.length_singleton]
  case nextId =>
    rw [hf.nextId, invoke_nextId, hnode, ← h.nextId]
    rfl

theorem tick_moves (hplain : ∀ node ∈ w.pendingNodes, interval node = none)
    (h : w.tick n now = some r) : Moves w now r := by
  apply tick_invariant (Moves w now) ?_ ?_ ?_ h
  · intro s node s' hs hf
    exact hs.fire hplain hf
  · intro s hs
    constructor
    case moved =>
      rw [advance_pendingNodes, advance_fired]
      exact hs.moved
    case due =>
      rw [advance_fired]
      exact hs.due
    case count =>
      rw [advance_count, advance_fired]
      exact hs.count
    case nextId =>
      rw [advance_nextId]
      exact hs.nextId
  · exact ⟨add_zero _, by simp, rfl, rfl⟩

end TimerWheel

/-! ## The invariant -/

namespace Watched

open TimerWheel (Plain tickIntervalNs)

variable {C : Type*} {s s' : Watched C} {now size : Nat} {answer : WheelAnswer}

/-- The ids count up from one, and the scheduled timers are divided between the
buckets and the history. -/
structure Ledger (s : Watched C) : Prop where
  plain : Plain s.wheel
  ids : s.scheduled.map TimerNode.id = List.range' 1 s.scheduled.length
  nextId : s.wheel.next_timer_id_ = wrap (s.scheduled.length + 1)
  divided : ((s.scheduled.map TimerNode.id : List Nat) : Multiset Nat) =
    s.wheel.pendingNodes.map TimerNode.id + ↑(s.fired.map fun f => f.2.id) + ↑s.cancelled
  pending : ∀ node ∈ s.wheel.pendingNodes, node ∈ s.scheduled
  fired : ∀ f ∈ s.fired, f.2 ∈ s.scheduled ∧ f.2.expireTime ≤ f.1

theorem ledger_new (hsize : 0 < size) : Ledger (new C size hsize) where
  plain := by simp [Plain, new, TimerWheel.new]
  ids := rfl
  nextId := rfl
  divided := by
    have hnone : (new C size hsize).wheel.pendingNodes = 0 := TimerWheel.pendingNodes_new size hsize
    rw [hnone]
    rfl
  pending := by
    have hnone : (new C size hsize).wheel.pendingNodes = 0 := TimerWheel.pendingNodes_new size hsize
    rw [hnone]
    simp
  fired := by simp [new]

theorem Ledger.accounted (h : Ledger s) : Accounted s := by
  have hnodup : (s.scheduled.map TimerNode.id).Nodup := by
    rw [h.ids]
    exact List.nodup_range'
  constructor
  case distinct => exact hnodup
  case oneState =>
    intro node hnode
    have hone := List.count_eq_one_of_mem hnodup (List.mem_map_of_mem hnode)
    have hcount := congrArg (Multiset.count node.id) h.divided
    simp only [Multiset.count_add, Multiset.coe_count] at hcount
    rw [← hcount]
    exact hone
  case pending => exact h.pending
  case fired => exact h.fired
  case cancelled =>
    intro timerId hid
    have hmem : timerId ∈ ((s.scheduled.map TimerNode.id : List Nat) : Multiset Nat) := by
      rw [h.divided, Multiset.mem_add]
      exact .inr hid
    exact List.mem_map.mp (Multiset.mem_coe.mp hmem)
  case count =>
    have hcard := congrArg Multiset.card h.divided
    simp only [Multiset.card_add, Multiset.card_map, Multiset.coe_card, List.length_map,
      TimerWheel.card_pendingNodes] at hcard
    exact hcard.symm

/-! ## The operations -/

theorem Ledger.schedule (h : Ledger s) (hroom : s.scheduled.length + 1 < 2 ^ 64) (time : Nat)
    (callback : C) :
    Ledger (s.afterSchedule (s.wheel.emplace time (.user callback)) time (.user callback)).2 := by
  have hid : s.wheel.next_timer_id_ = s.scheduled.length + 1 :=
    h.nextId.trans (Nat.mod_eq_of_lt hroom)
  have hpending := TimerWheel.pendingNodes_emplace s.wheel time (.user callback)
  constructor
  case plain =>
    intro b node hnode
    rcases TimerWheel.mem_emplace hnode with hold | ⟨_, rfl⟩
    · exact h.plain b node hold
    · rfl
  case ids =>
    have hlast : (s.wheel.emplace time (.user callback)).1 = 1 + s.scheduled.length := by
      rw [Nat.add_comm]
      exact hid
    simp only [afterSchedule, List.map_append, List.map_cons, List.map_nil, List.length_append,
      List.length_singleton]
    rw [List.range'_1_concat, h.ids, hlast]
  case nextId =>
    simp only [afterSchedule, List.length_append, List.length_singleton]
    change wrap (s.wheel.next_timer_id_ + 1) = _
    rw [hid]
  case divided =>
    simp only [afterSchedule, List.map_append, List.map_cons, List.map_nil]
    calc ((s.scheduled.map TimerNode.id ++ [s.wheel.next_timer_id_] : List Nat) : Multiset Nat)
        = s.wheel.next_timer_id_ ::ₘ ↑(s.scheduled.map TimerNode.id) := Buckets.coe_concat _ _
      _ = s.wheel.next_timer_id_ ::ₘ s.wheel.pendingNodes.map TimerNode.id +
            ↑(s.fired.map fun f => f.2.id) + ↑s.cancelled := by
          rw [h.divided, Multiset.cons_add, Multiset.cons_add]
      _ = (s.wheel.emplace time (.user callback)).2.pendingNodes.map TimerNode.id +
            ↑(s.fired.map fun f => f.2.id) + ↑s.cancelled := by
          rw [hpending, Multiset.map_cons]
  case pending =>
    intro node hnode
    simp only [afterSchedule] at hnode ⊢
    rw [hpending, Multiset.mem_cons] at hnode
    rw [List.mem_append, List.mem_singleton]
    rcases hnode with rfl | hold
    · exact .inr rfl
    · exact .inl (h.pending node hold)
  case fired =>
    intro f hf
    have hold := h.fired f hf
    exact ⟨List.mem_append_left _ hold.1, hold.2⟩

theorem Ledger.cancel (h : Ledger s) (timerId : Nat) :
    Ledger (s.afterCancel (s.wheel.cancel timerId) timerId).2 ∧
      ((s.wheel.cancel timerId).1 = true ↔
        ∃ node ∈ s.wheel.pendingNodes, node.id = timerId) := by
  have hplain : Plain (s.wheel.cancel timerId).2 :=
    fun b node hnode => h.plain b node (TimerWheel.mem_cancel hnode)
  rcases TimerWheel.cancel_cases s.wheel timerId with
    ⟨hcancel, hnone⟩ | ⟨node, w', hcancel, hid, hpending, hnext⟩
  · rw [hcancel]
    refine ⟨⟨h.plain, h.ids, h.nextId, h.divided, h.pending, h.fired⟩, ?_⟩
    constructor
    · intro hfalse
      cases hfalse
    · intro ⟨node, hnode, hid⟩
      exact (hnone node hnode hid).elim
  · have hmem : node ∈ s.wheel.pendingNodes := by
      rw [hpending]
      exact Multiset.mem_cons_self node _
    rw [hcancel] at hplain ⊢
    refine ⟨?_, fun _ => ⟨node, hmem, hid⟩, fun _ => rfl⟩
    constructor
    case plain => exact hplain
    case ids => exact h.ids
    case nextId => exact hnext.trans h.nextId
    case divided =>
      calc ((s.scheduled.map TimerNode.id : List Nat) : Multiset Nat)
          = s.wheel.pendingNodes.map TimerNode.id + ↑(s.fired.map fun f => f.2.id) +
              ↑s.cancelled := h.divided
        _ = w'.pendingNodes.map TimerNode.id + ↑(s.fired.map fun f => f.2.id) +
              timerId ::ₘ ↑s.cancelled := by
            rw [hpending, Multiset.map_cons, hid, Multiset.cons_add, Multiset.cons_add,
              Multiset.add_cons]
        _ = w'.pendingNodes.map TimerNode.id + ↑(s.fired.map fun f => f.2.id) +
              ↑(s.cancelled ++ [timerId]) := by
            rw [Buckets.coe_concat]
    case pending =>
      intro m hm
      apply h.pending m
      rw [hpending]
      exact Multiset.mem_cons_of_mem hm
    case fired => exact h.fired

theorem Ledger.tick (h : Ledger s) (hnow : now + tickIntervalNs < 2 ^ 64) :
    ∃ n r, s.wheel.tick n now = some r ∧ r.expiredCount = r.fired.length ∧
      Ledger (s.afterTick r now).2 := by
  have hfit := TimerWheel.noOverflow_of_lt (w := s.wheel) hnow
  have hplain : ∀ node ∈ s.wheel.pendingNodes, TimerWheel.interval node = none := by
    intro node hnode
    obtain ⟨b, _, hmem⟩ := TimerWheel.mem_pendingNodes.mp hnode
    exact h.plain b node hmem
  obtain ⟨n, r, hr⟩ := TimerWheel.tick_returns hfit h.plain.not_rearmsDuring
  obtain ⟨⟨k, hsweep⟩, _⟩ := TimerWheel.tick_sweeps hfit h.plain hr
  have hmoves := TimerWheel.tick_moves hplain hr
  have hfrom : ∀ node, node ∈ r.wheel.pendingNodes ∨ node ∈ r.fired →
      node ∈ s.wheel.pendingNodes := by
    intro node hnode
    rw [← hmoves.moved, Multiset.mem_add]
    exact hnode
  refine ⟨n, r, hr, hmoves.count, ?_⟩
  constructor
  case plain => exact fun b node hnode => h.plain b node (hsweep.subset b node hnode)
  case ids => exact h.ids
  case nextId => exact hmoves.nextId.trans h.nextId
  case divided =>
    have hran : (r.fired.map fun node => (now, node)).map (fun f => f.2.id) =
        r.fired.map TimerNode.id := by
      rw [List.map_map]
      rfl
    calc ((s.scheduled.map TimerNode.id : List Nat) : Multiset Nat)
        = s.wheel.pendingNodes.map TimerNode.id + ↑(s.fired.map fun f => f.2.id) +
            ↑s.cancelled := h.divided
      _ = r.wheel.pendingNodes.map TimerNode.id + ↑(r.fired.map TimerNode.id) +
            ↑(s.fired.map fun f => f.2.id) + ↑s.cancelled := by
          rw [← hmoves.moved, Multiset.map_add, Multiset.map_coe]
      _ = r.wheel.pendingNodes.map TimerNode.id +
            ↑((s.fired ++ r.fired.map fun node => (now, node)).map fun f => f.2.id) +
            ↑s.cancelled := by
          rw [List.map_append, hran, ← Multiset.coe_add, ← add_assoc,
            add_right_comm (r.wheel.pendingNodes.map TimerNode.id)]
  case pending => exact fun node hnode => h.pending node (hfrom node (.inl hnode))
  case fired =>
    intro f hf
    rcases List.mem_append.mp hf with hold | hnew
    · exact h.fired f hold
    · obtain ⟨node, hnode, rfl⟩ := List.mem_map.mp hnew
      exact ⟨h.pending node (hfrom node (.inr hnode)), hmoves.due node hnode⟩

/-! ## Runs -/

theorem Ledger.perform (h : Ledger s) (op : WheelOp C) (hop : Simple op)
    (hroom : schedules op → s.scheduled.length + 1 < 2 ^ 64) :
    ∃ answer s', s.perform op = some (answer, s') ∧ Ledger s' ∧
      s'.scheduled.length = s.scheduled.length + (if schedules op then 1 else 0) ∧
      Answers s answer s' op ∧ Grows s s' := by
  cases op with
  | schedule d callback =>
      exact ⟨_, _, rfl, h.schedule (hroom rfl) _ callback, List.length_append, ⟨_, rfl, rfl⟩,
        List.prefix_append _ _, List.prefix_rfl, List.prefix_rfl⟩
  | scheduleAt time callback =>
      exact ⟨_, _, rfl, h.schedule (hroom rfl) _ callback, List.length_append, ⟨_, rfl, rfl⟩,
        List.prefix_append _ _, List.prefix_rfl, List.prefix_rfl⟩
  | scheduleRecurring i callback => exact hop.elim
  | cancel timerId =>
      obtain ⟨hledger, hfound⟩ := h.cancel timerId
      refine ⟨_, _, rfl, hledger, rfl, ⟨_, rfl, hfound⟩, List.prefix_rfl, List.prefix_rfl, ?_⟩
      dsimp only
      split_ifs
      · exact List.prefix_append _ _
      · exact List.prefix_rfl
  | tick now =>
      obtain ⟨n, r, hr, hcount, hledger⟩ := h.tick hop
      refine ⟨_, _, perform_tick_eq_some.mpr ⟨n, r, hr, rfl⟩, hledger, rfl, ⟨r.fired, rfl, ?_⟩,
        List.prefix_rfl, List.prefix_append _ _, List.prefix_rfl⟩
      rw [hcount]
  | clear => exact hop.elim

theorem room_of_prefix {ops pre : List (WheelOp C)} {op : WheelOp C}
    (hfew : ops.countP schedules < 2 ^ 64) (hpre : pre ++ [op] <+: ops) (hop : schedules op) :
    pre.countP schedules + 1 < 2 ^ 64 := by
  have hle := hpre.sublist.countP_le (p := schedules)
  rw [List.countP_append, List.countP_singleton, if_pos hop] at hle
  omega

theorem exec_ledger (hsize : 0 < size) {ops : List (WheelOp C)} (hops : ∀ op ∈ ops, Simple op)
    (hfew : ops.countP schedules < 2 ^ 64) :
    ∃ s, (new C size hsize).exec ops = some s ∧ Ledger s ∧
      s.scheduled.length = ops.countP schedules := by
  apply Runs.exec_total (fun (pre : List (WheelOp C)) (s : Watched C) =>
    Ledger s ∧ s.scheduled.length = pre.countP schedules) ⟨ledger_new hsize, rfl⟩
  intro pre op s hpre _ ⟨hledger, hlength⟩
  have hcount : (pre ++ [op]).countP schedules =
      pre.countP schedules + (if schedules op then 1 else 0) := by
    rw [List.countP_append, List.countP_singleton]
  have hroom : schedules op → s.scheduled.length + 1 < 2 ^ 64 := by
    rw [hlength]
    exact room_of_prefix hfew hpre
  obtain ⟨answer, s', hperform, hledger', hlength', _, _⟩ :=
    hledger.perform op (hops op (hpre.subset (by simp))) hroom
  refine ⟨s', by rw [hperform]; rfl, hledger', ?_⟩
  rw [hlength', hcount, hlength]

/-- **Every timer of a run of one-shot timers is pending until it fires, at or
after its time, or is cancelled, and does so once; the answers tell which.** -/
theorem exec_accounted (size : Nat) (hsize : 0 < size) (ops : List (WheelOp C))
    (hops : ∀ op ∈ ops, Simple op) (hfew : ops.countP schedules < 2 ^ 64) :
    (∀ pre, pre <+: ops → ∃ s, (new C size hsize).exec pre = some s ∧ Accounted s) ∧
    ∀ pre op, pre ++ [op] <+: ops → ∀ s, (new C size hsize).exec pre = some s →
      ∃ answer s', s.perform op = some (answer, s') ∧ Answers s answer s' op ∧ Grows s s' := by
  have hbefore : ∀ pre, pre <+: ops → ∃ s, (new C size hsize).exec pre = some s ∧ Ledger s ∧
      s.scheduled.length = pre.countP schedules := by
    intro pre hpre
    apply exec_ledger hsize
    · intro op hop
      exact hops op (hpre.subset hop)
    · exact Nat.lt_of_le_of_lt hpre.sublist.countP_le hfew
  constructor
  · intro pre hpre
    obtain ⟨s, hs, hledger, _⟩ := hbefore pre hpre
    exact ⟨s, hs, hledger.accounted⟩
  · intro pre op hpre s hs
    obtain ⟨s', hs', hledger, hlength⟩ := hbefore pre ((List.prefix_append _ _).trans hpre)
    obtain rfl : s' = s := Option.some.inj (hs'.symm.trans hs)
    have hroom : schedules op → s'.scheduled.length + 1 < 2 ^ 64 := by
      rw [hlength]
      exact room_of_prefix hfew hpre
    obtain ⟨answer, s'', hperform, _, _, hanswers, hgrows⟩ :=
      hledger.perform op (hops op (hpre.subset (by simp))) hroom
    exact ⟨answer, s'', hperform, hanswers, hgrows⟩

/-- Two timers, of which one is cancelled, and a tick past both. -/
def oneCancelled : List (WheelOp Unit) :=
  [.schedule 5000000 (), .scheduleAt 7000000 (), .cancel 1, .tick 9000000]

theorem exec_accounted_oneCancelled : ∃ s s',
    (new Unit TimerWheel.defaultWheelSize (by decide)).exec (oneCancelled.take 3) = some s ∧
    s.perform (.tick 9000000) = some (.expired 1, s') ∧ Accounted s' ∧
    s'.fired = [(9000000, ⟨2, 7000000, .user ()⟩)] ∧ s'.cancelled = [1] ∧
    s'.wheel.pendingCount = 0 := by
  have hrun : ((new Unit TimerWheel.defaultWheelSize (by decide)).execIn 20
      (oneCancelled.take 3)).bind (fun s => (s.performIn 20 (.tick 9000000)).map fun r =>
        (r.1, r.2.fired, r.2.cancelled, r.2.wheel.pendingCount)) =
      some (.expired 1, [(9000000, ⟨2, 7000000, .user ()⟩)], [1], 0) := by decide +kernel
  obtain ⟨s, hs, hrun⟩ := Option.bind_eq_some_iff.mp hrun
  obtain ⟨⟨answer, s'⟩, htick, hrun⟩ := Option.map_eq_some_iff.mp hrun
  obtain ⟨rfl, hfired, hcancelled, hpending⟩ : answer = .expired 1 ∧
      s'.fired = [(9000000, ⟨2, 7000000, .user ()⟩)] ∧ s'.cancelled = [1] ∧
      s'.wheel.pendingCount = 0 := by simpa only [Prod.mk.injEq] using hrun
  have hexec := exec_of_execIn hs
  have hperform := perform_of_performIn htick
  have hall : (new Unit TimerWheel.defaultWheelSize (by decide)).exec oneCancelled = some s' := by
    change (new Unit TimerWheel.defaultWheelSize (by decide)).exec
      (oneCancelled.take 3 ++ [.tick 9000000]) = some s'
    rw [exec, Runs.exec_snoc, ← exec, hexec, Option.bind_some, hperform, Option.map_some]
  obtain ⟨t, ht, haccounted⟩ := (exec_accounted TimerWheel.defaultWheelSize (by decide)
    oneCancelled (by simp [oneCancelled, Simple, tickIntervalNs]) (by decide)).1
    oneCancelled List.prefix_rfl
  obtain rfl : s' = t := Option.some.inj (hall.symm.trans ht)
  exact ⟨s, s', hexec, hperform, haccounted, hfired, hcancelled, hpending⟩

end Watched

end UltraHft.Core
