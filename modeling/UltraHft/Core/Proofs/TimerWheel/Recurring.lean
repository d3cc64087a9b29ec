import UltraHft.Core.Proofs.TimerWheel.History

/-!
# Cancelling a recurring timer

When a recurring timer fires, its wrapper schedules the next occurrence under a
new id, which nobody is told.  So the id that `schedule_recurring` returned
stops the timer only as long as the first occurrence waits.  One recurring timer
is observed here: its callback is `none`, and every other callback is `some` of
something.
-/

namespace UltraHft.Core

open UltraHft.Lib

def Callback.target {C : Type*} : Callback C → C
  | .user callback => callback
  | .recurring _ _ callback => callback

namespace TimerWheel

variable {C : Type*} {w w' : TimerWheel (Option C)} {now n base timerId : Nat}
  {s s' r : Ticking (Option C)} {node first : TimerNode (Option C)}

def own (node : TimerNode (Option C)) : Bool := node.callback.target.isNone

def recurs (node : TimerNode (Option C)) : Bool := (interval node).isSome

def ownCount (w : TimerWheel (Option C)) : Nat := w.pendingNodes.countP fun node => own node

def idCount (w : TimerWheel (Option C)) (timerId : Nat) : Nat :=
  (w.pendingNodes.map TimerNode.id).count timerId

theorem idCount_eq_zero : w.idCount timerId = 0 ↔ ∀ node ∈ w.pendingNodes, node.id ≠ timerId := by
  rw [idCount, Multiset.count_eq_zero]
  simp

theorem ownCount_eq_zero : w.ownCount = 0 ↔ ∀ node ∈ w.pendingNodes, own node = false := by
  simp [ownCount, Multiset.countP_eq_zero]

theorem ownCount_clear (w : TimerWheel (Option C)) : w.clear.ownCount = 0 := by
  rw [ownCount, pendingNodes_clear, Multiset.countP_zero]

theorem idCount_clear (w : TimerWheel (Option C)) : w.clear.idCount timerId = 0 := by
  rw [idCount, pendingNodes_clear, Multiset.map_zero, Multiset.count_zero]

theorem eq_of_own (hone : w.ownCount ≤ 1) (hfirst : first ∈ w.pendingNodes)
    (hown : own first) (hnode : node ∈ w.pendingNodes) (hown' : own node) : node = first := by
  obtain ⟨others, hothers⟩ := Multiset.exists_cons_of_mem hfirst
  rw [ownCount, hothers, Multiset.countP_cons, if_pos hown] at hone
  have hnone : others.countP (fun node => own node) = 0 := by omega
  rw [hothers, Multiset.mem_cons] at hnode
  rcases hnode with heq | hmem
  · exact heq
  · exact absurd hown' (Multiset.countP_eq_zero.mp hnone node hmem)

/-! ## What a firing leaves behind -/

theorem mem_offspring {child : TimerNode (Option C)} (h : child ∈ w.offspring node) :
    child.id = w.next_timer_id_ ∧ own child = own node ∧ recurs node = true := by
  unfold offspring at h
  unfold own recurs interval
  cases hcb : node.callback with
  | user callback =>
      rw [hcb] at h
      cases h
  | recurring id i callback =>
      rw [hcb] at h
      rw [List.mem_singleton.mp h]
      exact ⟨rfl, rfl, rfl⟩

theorem length_offspring_le : (w.offspring node).length ≤ 1 := by
  unfold offspring
  cases node.callback with
  | user callback => exact Nat.zero_le 1
  | recurring id i callback => exact Nat.le_refl 1

theorem offspring_own (w : TimerWheel (Option C)) (node : TimerNode (Option C)) :
    (w.offspring node : Multiset (TimerNode (Option C))).countP
    (fun child => own child) ≤ if own node then 1 else 0 := by
  by_cases hown : own node
  · rw [if_pos hown]
    exact (Multiset.countP_le_card _ _).trans length_offspring_le
  · rw [if_neg hown, Nat.le_zero, Multiset.countP_eq_zero]
    intro child hchild
    rw [(mem_offspring (Multiset.mem_coe.mp hchild)).2.1]
    exact hown

theorem Fires.ownCount_le (h : Fires now s node s') : s'.wheel.ownCount ≤ s.wheel.ownCount := by
  have hcount := congrArg (Multiset.countP fun node => own node) h.pending
  rw [Multiset.countP_add, Multiset.countP_cons] at hcount
  have hoff := offspring_own s.wheel node
  unfold ownCount
  omega

theorem Fires.keeps (h : Fires now s node s') (hfirst : first ∈ s.wheel.pendingNodes)
    (hne : first ≠ node) : first ∈ s'.wheel.pendingNodes := by
  have hmem : first ∈ node ::ₘ s'.wheel.pendingNodes := by
    rw [← h.pending, Multiset.mem_add]
    exact .inl hfirst
  exact (Multiset.mem_cons.mp hmem).resolve_left hne

theorem Fires.origin (h : Fires now s node s') {m : TimerNode (Option C)}
    (hm : m ∈ s'.wheel.pendingNodes) :
    m ∈ s.wheel.pendingNodes ∨ m.id = s.wheel.next_timer_id_ ∧ recurs node = true := by
  have hmem : m ∈ s.wheel.pendingNodes + ↑(s.wheel.offspring node) := by
    rw [h.pending]
    exact Multiset.mem_cons_of_mem hm
  rcases Multiset.mem_add.mp hmem with hold | hnew
  · exact .inl hold
  · have hchild := mem_offspring (Multiset.mem_coe.mp hnew)
    exact .inr ⟨hchild.1, hchild.2.2⟩

/-! ## Ticks -/

/-- A tick that began with `w` brings about no second node, and fires none if it
found none. -/
structure Quiet (w : TimerWheel (Option C)) (s : Ticking (Option C)) : Prop where
  own : s.wheel.ownCount ≤ w.ownCount
  none : w.ownCount = 0 → ∀ node ∈ s.fired, TimerWheel.own node = false

theorem Quiet.fire (h : Quiet w s) (hf : Fires now s node s') : Quiet w s' := by
  constructor
  case own => exact hf.ownCount_le.trans h.own
  case none =>
    intro hzero m hm
    rw [hf.fired, List.mem_append, List.mem_singleton] at hm
    rcases hm with hm | rfl
    · exact h.none hzero m hm
    · have hhere : s.wheel.ownCount = 0 := by
        have hle := h.own
        omega
      exact ownCount_eq_zero.mp hhere m hf.mem

theorem Quiet.advance (h : Quiet w s) : Quiet w s.advance := by
  constructor
  · unfold ownCount
    rw [advance_pendingNodes]
    exact h.own
  · rw [advance_fired]
    exact h.none

theorem quiet_start : Quiet w ⟨w, 0, []⟩ := ⟨Nat.le_refl _, by simp⟩

theorem tick_quiet (h : w.tick n now = some r) : Quiet w r :=
  tick_invariant (Quiet w) (fun _ _ _ hs hf => hs.fire hf) (fun _ hs => hs.advance) quiet_start h

theorem passes_quiet (h : w.Passes now r) : Quiet w r :=
  passes_invariant (Quiet w) (fun _ _ _ hs hf => hs.fire hf) (fun _ hs => hs.advance) quiet_start h

/-- A tick fires the node that waits, or no node of the timer. -/
structure Waits (first : TimerNode (Option C)) (s : Ticking (Option C)) : Prop where
  own : s.wheel.ownCount ≤ 1
  cases : (first ∈ s.wheel.pendingNodes ∧ ∀ node ∈ s.fired, TimerWheel.own node = false) ∨
    first ∈ s.fired

theorem Waits.fire (hown : TimerWheel.own first) (h : Waits first s) (hf : Fires now s node s') :
    Waits first s' := by
  constructor
  case own => exact hf.ownCount_le.trans h.own
  case cases =>
    rw [hf.fired]
    rcases h.cases with ⟨hwaits, hnone⟩ | hfired
    · cases hnode : TimerWheel.own node with
      | true =>
          have heq := eq_of_own h.own hwaits hown hf.mem hnode
          exact .inr (by simp [heq])
      | false =>
          have hne : first ≠ node := by
            intro heq
            rw [heq, hnode] at hown
            cases hown
          refine .inl ⟨hf.keeps hwaits hne, ?_⟩
          intro m hm
          rcases List.mem_append.mp hm with hm | hm
          · exact hnone m hm
          · rw [List.mem_singleton.mp hm]
            exact hnode
    · exact .inr (List.mem_append_left _ hfired)

theorem tick_waits (hown : TimerWheel.own first) (hone : w.ownCount ≤ 1)
    (hfirst : first ∈ w.pendingNodes) (h : w.tick n now = some r) : Waits first r := by
  apply tick_invariant (Waits first) ?_ ?_ ?_ h
  · intro s node s' hs hf
    exact hs.fire hown hf
  · intro s hs
    constructor
    · unfold ownCount
      rw [advance_pendingNodes]
      exact hs.own
    · rw [advance_fired, advance_pendingNodes]
      exact hs.cases
  · exact ⟨hone, .inl ⟨hfirst, by simp⟩⟩

theorem count_offspring (hne : recurs node → w.next_timer_id_ ≠ timerId) :
    ((w.offspring node : Multiset (TimerNode (Option C))).map TimerNode.id).count timerId = 0 := by
  rw [Multiset.count_eq_zero, Multiset.mem_map]
  intro ⟨child, hchild, hid⟩
  obtain ⟨hnext, _, hrec⟩ := mem_offspring (Multiset.mem_coe.mp hchild)
  exact hne hrec (hnext.symm.trans hid)

theorem count_snoc (fired : List (TimerNode (Option C))) :
    ((fired ++ [node]).map TimerNode.id).count timerId =
      (fired.map TimerNode.id).count timerId + if timerId = node.id then 1 else 0 := by
  rw [List.map_append, List.count_append, List.map_singleton]
  by_cases heq : timerId = node.id
  · rw [heq, List.count_singleton_self, if_pos rfl]
  · rw [List.count_eq_zero.mpr fun hmem => heq (List.mem_singleton.mp hmem), if_neg heq]

/-- The ids of a tick that began with `w` when `base` ids had been issued: those
of the new occurrences follow on, so that no id of before comes up anew. -/
structure Numbered (w : TimerWheel (Option C)) (base timerId : Nat) (s : Ticking (Option C)) :
    Prop where
  nextId : s.wheel.next_timer_id_ = wrap (base + s.fired.countP recurs + 1)
  below : ∀ node ∈ s.wheel.pendingNodes, node.id ≤ base + s.fired.countP recurs
  uses : s.wheel.idCount timerId + (s.fired.map TimerNode.id).count timerId ≤ w.idCount timerId

theorem Numbered.fire (hold : timerId ≤ base) (hfew : base + s'.fired.countP recurs < 2 ^ 64)
    (h : Numbered w base timerId s) (hf : Fires now s node s') : Numbered w base timerId s' := by
  have hcount : s'.fired.countP recurs =
      s.fired.countP recurs + (if recurs node then 1 else 0) := by
    rw [hf.fired, List.countP_append, List.countP_singleton]
  -- what the callback schedules has an id that was never used
  have hnew : recurs node → s.wheel.next_timer_id_ = base + s'.fired.countP recurs := by
    intro hrec
    rw [hcount, if_pos hrec] at hfew ⊢
    rw [h.nextId]
    exact Nat.mod_eq_of_lt (by omega)
  constructor
  case nextId =>
    rw [hf.nextId, invoke_nextId, hcount, h.nextId]
    change (if recurs node then _ else _) = _
    by_cases hrec : recurs node
    · rw [if_pos hrec, if_pos hrec]
      exact Nat.mod_add_mod _ _ _
    · rw [if_neg hrec, if_neg hrec]
      rfl
  case below =>
    intro m hm
    rcases hf.origin hm with hmem | ⟨hid, hrec⟩
    · have hle := h.below m hmem
      omega
    · rw [hid, hnew hrec]
  case uses =>
    have hfresh : ((s.wheel.offspring node : Multiset (TimerNode (Option C))).map
        TimerNode.id).count timerId = 0 := by
      apply count_offspring
      intro hrec
      have hid := hnew hrec
      rw [hcount, if_pos hrec] at hid
      omega
    have hpending := congrArg (fun t => (t.map TimerNode.id).count timerId) hf.pending
    simp only [Multiset.map_add, Multiset.map_cons, Multiset.count_add, Multiset.count_cons,
      hfresh] at hpending
    have huses := h.uses
    unfold idCount at huses ⊢
    rw [hf.fired, count_snoc]
    omega

theorem tick_numbered (hold : timerId ≤ base) (hnext : w.next_timer_id_ = wrap (base + 1))
    (hbelow : ∀ node ∈ w.pendingNodes, node.id ≤ base) (h : w.tick n now = some r)
    (hfew : base + r.fired.countP recurs < 2 ^ 64) : Numbered w base timerId r := by
  apply tick_invariant (fun s => base + s.fired.countP recurs < 2 ^ 64 →
    Numbered w base timerId s) ?_ ?_ ?_ h hfew
  · intro s node s' hs hf hfew
    apply Numbered.fire hold hfew (hs ?_) hf
    rw [hf.fired, List.countP_append] at hfew
    omega
  · intro s hs hfew
    rw [advance_fired] at hfew
    have hnum := hs hfew
    constructor
    · rw [advance_nextId, advance_fired]
      exact hnum.nextId
    · rw [advance_pendingNodes, advance_fired]
      exact hnum.below
    · unfold idCount
      rw [advance_pendingNodes, advance_fired]
      exact hnum.uses
  · intro _
    exact ⟨hnext, hbelow, Nat.le_refl _⟩

end TimerWheel

/-! ## Operations around the timer -/

namespace Watched

open TimerWheel (own recurs)

variable {C : Type*} {s s' : Watched (Option C)} {answer : WheelAnswer}
  {op : WheelOp (Option C)} {ops mid : List (WheelOp (Option C))}
  {first : TimerNode (Option C)} {timerId size : Nat}

def callbackOf : WheelOp C → Option C
  | .schedule _ callback | .scheduleAt _ callback | .scheduleRecurring _ callback => some callback
  | .cancel _ | .tick _ | .clear => none

/-- The operation has nothing to do with the timer under observation, other than
that it may cancel it. -/
def Other (op : WheelOp (Option C)) : Prop := callbackOf op ≠ some none

def issued (s : Watched (Option C)) : Nat :=
  s.scheduled.length + s.fired.countP fun f => recurs f.2

/-- The first occurrence has not fired, and nothing has removed it. -/
def FirstWaits (s : Watched (Option C)) (timerId : Nat) (mid : List (WheelOp (Option C))) : Prop :=
  (∀ f ∈ s.fired, own f.2 = false) ∧ .cancel timerId ∉ mid ∧ .clear ∉ mid

/-- No other pending timer has the id. -/
def NoNamesake (s : Watched (Option C)) (timerId : Nat) : Prop :=
  ∀ node ∈ s.wheel.pendingNodes, node.id = timerId → own node = true

/-- The callback runs neither in a later operation nor in a tick that follows, be
it one that never comes back. -/
def NeverRuns (s : Watched (Option C)) : Prop :=
  ∀ later, (∀ op ∈ later, Other op) → ∀ s', s.exec later = some s' →
    (∃ ran, s'.fired = s.fired ++ ran ∧ ∀ f ∈ ran, own f.2 = false) ∧
    ∀ now r, s'.wheel.Passes now r → ∀ node ∈ r.fired, own node = false

/-- A cancellation of the id succeeds, and whatever is done with the wheel from
then on, the callback does not run again. -/
def Stops (s : Watched (Option C)) (timerId : Nat) : Prop :=
  ∃ s', s.perform (.cancel timerId) = some (.cancelled true, s') ∧ NeverRuns s'

theorem perform_cases {s s' : Watched C} {op : WheelOp C}
    (h : s.perform op = some (answer, s')) :
    (∃ time callback, callbackOf op = some callback.target ∧
      s' = (s.afterSchedule (s.wheel.emplace time callback) time callback).2) ∨
    (∃ timerId, op = .cancel timerId ∧
      s' = (s.afterCancel (s.wheel.cancel timerId) timerId).2) ∨
    (∃ now n r, op = .tick now ∧ s.wheel.tick n now = some r ∧ s' = (s.afterTick r now).2) ∨
    (op = .clear ∧ s' = { s with wheel := s.wheel.clear }) := by
  cases op with
  | schedule d callback =>
      exact .inl ⟨_, .user callback, rfl, (congrArg Prod.snd (Option.some.inj h)).symm⟩
  | scheduleAt time callback =>
      exact .inl ⟨time, .user callback, rfl, (congrArg Prod.snd (Option.some.inj h)).symm⟩
  | scheduleRecurring i callback =>
      exact .inl ⟨_, .recurring s.wheel.next_timer_id_ i callback, rfl,
        (congrArg Prod.snd (Option.some.inj h)).symm⟩
  | cancel timerId =>
      exact .inr (.inl ⟨timerId, rfl, (congrArg Prod.snd (Option.some.inj h)).symm⟩)
  | tick now =>
      obtain ⟨n, r, hr, heq⟩ := perform_tick_eq_some.mp h
      exact .inr (.inr (.inl ⟨now, n, r, rfl, hr, (congrArg Prod.snd heq).symm⟩))
  | clear => exact .inr (.inr (.inr ⟨rfl, (congrArg Prod.snd (Option.some.inj h)).symm⟩))

/-! ## The timer after its cancellation -/

theorem ownCount_emplace {w : TimerWheel (Option C)} {time : Nat} {callback : Callback (Option C)}
    (hother : callback.target ≠ none) :
    (w.emplace time callback).2.ownCount = w.ownCount := by
  have hown : own (⟨w.next_timer_id_, time, callback⟩ : TimerNode (Option C)) = false := by
    simpa [own, Option.isSome_iff_ne_none] using hother
  unfold TimerWheel.ownCount
  rw [TimerWheel.pendingNodes_emplace, Multiset.countP_cons, hown]
  rfl

theorem ownCount_cancel_le (w : TimerWheel (Option C)) (timerId : Nat) :
    (w.cancel timerId).2.ownCount ≤ w.ownCount := by
  rcases w.cancel_cases timerId with ⟨hcancel, _⟩ | ⟨node, w', hcancel, _, hpending, _⟩
  · rw [hcancel]
  · rw [hcancel]
    unfold TimerWheel.ownCount
    rw [hpending, Multiset.countP_cons]
    exact Nat.le_add_right _ _

/-- The other operations neither bring the timer back nor run its callback. -/
theorem perform_absent (hop : Other op) (hp : s.perform op = some (answer, s'))
    (habsent : s.wheel.ownCount = 0) :
    s'.wheel.ownCount = 0 ∧ ∃ ran, s'.fired = s.fired ++ ran ∧ ∀ f ∈ ran, own f.2 = false := by
  rcases perform_cases hp with ⟨time, callback, hcall, rfl⟩ | ⟨timerId, rfl, rfl⟩ |
    ⟨now, n, r, rfl, hr, rfl⟩ | ⟨rfl, rfl⟩
  · refine ⟨?_, [], (List.append_nil _).symm, by simp⟩
    have hother : callback.target ≠ none := by
      intro hnone
      rw [hnone] at hcall
      exact hop hcall
    exact (ownCount_emplace hother).trans habsent
  · refine ⟨?_, [], (List.append_nil _).symm, by simp⟩
    have hle := ownCount_cancel_le s.wheel timerId
    exact Nat.le_zero.mp (hle.trans_eq habsent)
  · have hquiet := TimerWheel.tick_quiet hr
    refine ⟨Nat.le_zero.mp (hquiet.own.trans_eq habsent), _, rfl, ?_⟩
    intro f hf
    obtain ⟨node, hnode, rfl⟩ := List.mem_map.mp hf
    exact hquiet.none habsent node hnode
  · refine ⟨?_, [], (List.append_nil _).symm, by simp⟩
    exact s.wheel.ownCount_clear

theorem exec_absent (hops : ∀ op ∈ ops, Other op) (hr : s.exec ops = some s')
    (habsent : s.wheel.ownCount = 0) :
    s'.wheel.ownCount = 0 ∧ ∃ ran, s'.fired = s.fired ++ ran ∧ ∀ f ∈ ran, own f.2 = false := by
  apply Runs.exec_partial (fun _ (t : Watched (Option C)) => t.wheel.ownCount = 0 ∧
    ∃ ran, t.fired = s.fired ++ ran ∧ ∀ f ∈ ran, own f.2 = false) ?_ ?_ hr
  · exact ⟨habsent, [], (List.append_nil _).symm, by simp⟩
  · intro pre op t t' hpre _ ⟨hzero, ran, hran, hnone⟩ hstep
    obtain ⟨⟨answer, t''⟩, hp, rfl⟩ := Option.map_eq_some_iff.mp hstep
    obtain ⟨hzero', more, hmore, hnone'⟩ :=
      perform_absent (hops op (hpre.subset (by simp))) hp hzero
    refine ⟨hzero', ran ++ more, by rw [hmore, hran, List.append_assoc], ?_⟩
    intro f hf
    rcases List.mem_append.mp hf with hf | hf
    · exact hnone f hf
    · exact hnone' f hf

/-! ## The ids -/

structure Issues (s : Watched (Option C)) : Prop where
  nextId : s.wheel.next_timer_id_ = wrap (s.issued + 1)
  below : ∀ node ∈ s.wheel.pendingNodes, node.id ≤ s.issued

theorem issued_afterTick (s : Watched (Option C)) (r : TimerWheel.Ticking (Option C)) (now : Nat) :
    (s.afterTick r now).2.issued = s.issued + r.fired.countP recurs := by
  unfold issued afterTick
  rw [List.countP_append, List.countP_map, Nat.add_assoc]
  rfl

theorem issued_afterSchedule (s : Watched (Option C)) (r : Nat × TimerWheel (Option C))
    (time : Nat) (callback : Callback (Option C)) :
    (s.afterSchedule r time callback).2.issued = s.issued + 1 := by
  unfold issued afterSchedule
  rw [List.length_append, List.length_singleton, Nat.add_right_comm]

theorem issued_le (hp : s.perform op = some (answer, s')) : s.issued ≤ s'.issued := by
  rcases perform_cases hp with ⟨time, callback, _, rfl⟩ | ⟨timerId, rfl, rfl⟩ |
    ⟨now, n, r, rfl, hr, rfl⟩ | ⟨rfl, rfl⟩
  · rw [issued_afterSchedule]
    exact Nat.le_succ _
  · exact Nat.le_refl _
  · rw [issued_afterTick]
    exact Nat.le_add_right _ _
  · exact Nat.le_refl _

theorem Issues.next_eq (h : Issues s) (hfew : s.issued + 1 < 2 ^ 64) :
    s.wheel.next_timer_id_ = s.issued + 1 :=
  h.nextId.trans (Nat.mod_eq_of_lt hfew)

theorem Issues.schedule (h : Issues s) (hfew : s.issued + 1 < 2 ^ 64) (time : Nat)
    (callback : Callback (Option C)) :
    Issues (s.afterSchedule (s.wheel.emplace time callback) time callback).2 := by
  have hid := h.next_eq hfew
  constructor
  case nextId =>
    rw [issued_afterSchedule, ← hid]
    rfl
  case below =>
    intro node hnode
    rw [issued_afterSchedule]
    have hmem : node ∈ (s.wheel.emplace time callback).2.pendingNodes := hnode
    rw [TimerWheel.pendingNodes_emplace, Multiset.mem_cons] at hmem
    rcases hmem with rfl | hold
    · exact hid.le
    · exact (h.below node hold).trans (Nat.le_succ _)

theorem Issues.cancel (h : Issues s) (timerId : Nat) :
    Issues (s.afterCancel (s.wheel.cancel timerId) timerId).2 := by
  rcases s.wheel.cancel_cases timerId with
    ⟨hcancel, _⟩ | ⟨node, w', hcancel, _, hpending, hnext⟩
  · rw [hcancel]
    exact ⟨h.nextId, h.below⟩
  · rw [hcancel]
    refine ⟨hnext.trans h.nextId, ?_⟩
    intro m hm
    apply h.below m
    rw [hpending]
    exact Multiset.mem_cons_of_mem hm

theorem Issues.tick (h : Issues s) {n now : Nat} {r : TimerWheel.Ticking (Option C)}
    (hr : s.wheel.tick n now = some r) (hfew : s.issued + r.fired.countP recurs < 2 ^ 64) :
    Issues (s.afterTick r now).2 := by
  have hnum := TimerWheel.tick_numbered (Nat.zero_le _) h.nextId h.below hr hfew
  constructor
  case nextId =>
    rw [issued_afterTick]
    exact hnum.nextId
  case below =>
    rw [issued_afterTick]
    exact hnum.below

theorem Issues.perform (hp : s.perform op = some (answer, s')) (hfew : s'.issued < 2 ^ 64)
    (h : Issues s) : Issues s' := by
  rcases perform_cases hp with ⟨time, callback, _, rfl⟩ | ⟨timerId, rfl, rfl⟩ |
    ⟨now, n, r, rfl, hr, rfl⟩ | ⟨rfl, rfl⟩
  · rw [issued_afterSchedule] at hfew
    exact h.schedule hfew time callback
  · exact h.cancel timerId
  · rw [issued_afterTick] at hfew
    exact h.tick hr hfew
  · refine ⟨h.nextId, ?_⟩
    intro node hnode
    have hmem : node ∈ s.wheel.clear.pendingNodes := hnode
    rw [TimerWheel.pendingNodes_clear] at hmem
    simp at hmem

theorem issues_new (hsize : 0 < size) : Issues (new (Option C) size hsize) := by
  refine ⟨rfl, ?_⟩
  intro node hnode
  have hnone : (new (Option C) size hsize).wheel.pendingNodes = 0 :=
    TimerWheel.pendingNodes_new size hsize
  rw [hnone] at hnode
  simp at hnode

/-! ## The timer before its cancellation -/

/-- One occurrence at most is pending, the first one as long as it waits. -/
structure Chain (first : TimerNode (Option C)) (mid : List (WheelOp (Option C)))
    (s : Watched (Option C)) : Prop where
  single : s.wheel.ownCount ≤ 1
  waiting : FirstWaits s first.id mid → first ∈ s.wheel.pendingNodes

/-- The id of the first occurrence is not used for another timer. -/
structure Unique (first : TimerNode (Option C)) (mid : List (WheelOp (Option C)))
    (s : Watched (Option C)) : Prop where
  issued : first.id ≤ s.issued
  once : s.wheel.idCount first.id ≤ 1
  gone : ¬ FirstWaits s first.id mid → s.wheel.idCount first.id = 0

theorem firstWaits_snoc {ran : List (Nat × TimerNode (Option C))}
    (hfired : s'.fired = s.fired ++ ran) : FirstWaits s' timerId (mid ++ [op]) ↔
      FirstWaits s timerId mid ∧ (∀ f ∈ ran, own f.2 = false) ∧ op ≠ .cancel timerId ∧
        op ≠ .clear := by
  unfold FirstWaits
  rw [hfired]
  simp only [List.mem_append, List.mem_singleton, or_imp, forall_and, not_or]
  constructor
  · intro ⟨⟨hold, hnew⟩, ⟨hcancel, hop⟩, hclear, hop'⟩
    exact ⟨⟨hold, hcancel, hclear⟩, hnew, fun heq => hop heq.symm, fun heq => hop' heq.symm⟩
  · intro ⟨⟨hold, hcancel, hclear⟩, hnew, hop, hop'⟩
    exact ⟨⟨hold, hnew⟩, ⟨hcancel, fun heq => hop heq.symm⟩, hclear, fun heq => hop' heq.symm⟩

theorem firstWaits_snoc_still (hfired : s'.fired = s.fired) :
    FirstWaits s' timerId (mid ++ [op]) ↔
      FirstWaits s timerId mid ∧ op ≠ .cancel timerId ∧ op ≠ .clear := by
  rw [firstWaits_snoc (hfired.trans (List.append_nil _).symm)]
  simp

theorem Chain.schedule (hop : Other op) {time : Nat} {callback : Callback (Option C)}
    (hcall : callbackOf op = some callback.target) (h : Chain first mid s) :
    Chain first (mid ++ [op])
      (s.afterSchedule (s.wheel.emplace time callback) time callback).2 := by
  have hother : callback.target ≠ none := by
    intro hnone
    rw [hnone] at hcall
    exact hop hcall
  constructor
  case single => exact (ownCount_emplace hother).trans_le h.single
  case waiting =>
    intro hwaits
    have hmem := h.waiting ((firstWaits_snoc_still rfl).mp hwaits).1
    change first ∈ (s.wheel.emplace time callback).2.pendingNodes
    rw [TimerWheel.pendingNodes_emplace]
    exact Multiset.mem_cons_of_mem hmem

theorem Chain.cancel (h : Chain first mid s) (timerId : Nat) :
    Chain first (mid ++ [.cancel timerId])
      (s.afterCancel (s.wheel.cancel timerId) timerId).2 := by
  constructor
  case single => exact (ownCount_cancel_le _ _).trans h.single
  case waiting =>
    intro hwaits
    obtain ⟨hold, hne, _⟩ := (firstWaits_snoc_still rfl).mp hwaits
    have hmem := h.waiting hold
    change first ∈ (s.wheel.cancel timerId).2.pendingNodes
    rcases s.wheel.cancel_cases timerId with ⟨hcancel, _⟩ | ⟨node, w', hcancel, hid, hpending, _⟩
    · rw [hcancel]
      exact hmem
    · rw [hcancel]
      rw [hpending, Multiset.mem_cons] at hmem
      apply hmem.resolve_left
      intro heq
      rw [heq, hid] at hne
      exact hne rfl

theorem Chain.tick (hown : own first) (h : Chain first mid s) {n now : Nat}
    {r : TimerWheel.Ticking (Option C)} (hr : s.wheel.tick n now = some r) :
    Chain first (mid ++ [.tick now]) (s.afterTick r now).2 := by
  constructor
  case single => exact (TimerWheel.tick_quiet hr).own.trans h.single
  case waiting =>
    intro hwaits
    obtain ⟨hold, hran, _⟩ := (firstWaits_snoc rfl).mp hwaits
    rcases (TimerWheel.tick_waits hown h.single (h.waiting hold) hr).cases with
      ⟨hmem, _⟩ | hfired
    · exact hmem
    · have hnot := hran (now, first) (List.mem_map_of_mem hfired)
      rw [hown] at hnot
      cases hnot

theorem Chain.perform (hown : own first) (hop : Other op)
    (hp : s.perform op = some (answer, s')) (h : Chain first mid s) :
    Chain first (mid ++ [op]) s' := by
  rcases perform_cases hp with ⟨time, callback, hcall, rfl⟩ | ⟨timerId, rfl, rfl⟩ |
    ⟨now, n, r, rfl, hr, rfl⟩ | ⟨rfl, rfl⟩
  · exact h.schedule hop hcall
  · exact h.cancel timerId
  · exact h.tick hown hr
  · constructor
    case single => exact s.wheel.ownCount_clear.trans_le (Nat.zero_le 1)
    case waiting =>
      intro hwaits
      exact absurd rfl ((firstWaits_snoc_still rfl).mp hwaits).2.2

theorem idCount_emplace {w : TimerWheel (Option C)} (time : Nat) (callback : Callback (Option C))
    (hne : w.next_timer_id_ ≠ timerId) :
    (w.emplace time callback).2.idCount timerId = w.idCount timerId := by
  unfold TimerWheel.idCount
  rw [TimerWheel.pendingNodes_emplace, Multiset.map_cons, Multiset.count_cons_of_ne hne.symm]

theorem idCount_cancel (w : TimerWheel (Option C)) (timerId other : Nat) :
    (w.cancel other).2.idCount timerId = w.idCount timerId - if other = timerId then 1 else 0 := by
  rcases w.cancel_cases other with ⟨hcancel, hnone⟩ | ⟨node, w', hcancel, hid, hpending, _⟩
  · rw [hcancel]
    by_cases heq : other = timerId
    · rw [heq] at hnone
      rw [TimerWheel.idCount_eq_zero.mpr hnone, Nat.zero_sub]
    · rw [if_neg heq, Nat.sub_zero]
  · rw [hcancel]
    unfold TimerWheel.idCount
    rw [hpending, Multiset.map_cons, hid]
    by_cases heq : other = timerId
    · rw [if_pos heq, heq, Multiset.count_cons_self, Nat.add_sub_cancel]
    · rw [if_neg heq, Multiset.count_cons_of_ne (Ne.symm heq), Nat.sub_zero]

theorem Unique.schedule {time : Nat} {callback : Callback (Option C)}
    (hcall : callbackOf op = some callback.target) (hfew : s.issued + 1 < 2 ^ 64)
    (hissues : Issues s) (h : Unique first mid s) :
    Unique first (mid ++ [op])
      (s.afterSchedule (s.wheel.emplace time callback) time callback).2 := by
  have hne : s.wheel.next_timer_id_ ≠ first.id := by
    have hid := hissues.next_eq hfew
    have hle := h.issued
    omega
  have hcount := idCount_emplace time callback hne
  constructor
  case issued =>
    rw [issued_afterSchedule]
    exact h.issued.trans (Nat.le_succ _)
  case once => exact hcount.trans_le h.once
  case gone =>
    intro hgone
    apply hcount.trans
    apply h.gone
    intro hwaits
    apply hgone
    refine (firstWaits_snoc_still rfl).mpr ⟨hwaits, ?_, ?_⟩
    · intro hop
      rw [hop] at hcall
      cases hcall
    · intro hop
      rw [hop] at hcall
      cases hcall

theorem Unique.cancel (h : Unique first mid s) (timerId : Nat) :
    Unique first (mid ++ [.cancel timerId])
      (s.afterCancel (s.wheel.cancel timerId) timerId).2 := by
  have hcount := idCount_cancel s.wheel first.id timerId
  constructor
  case issued => exact h.issued
  case once => exact hcount.trans_le ((Nat.sub_le _ _).trans h.once)
  case gone =>
    intro hgone
    apply hcount.trans
    by_cases heq : timerId = first.id
    · have honce := h.once
      rw [if_pos heq]
      omega
    · have hzero : s.wheel.idCount first.id = 0 := by
        apply h.gone
        intro hwaits
        apply hgone
        refine (firstWaits_snoc_still rfl).mpr ⟨hwaits, ?_, by simp⟩
        intro hsame
        exact heq (WheelOp.cancel.inj hsame)
      rw [hzero, Nat.zero_sub]

theorem Unique.tick (hown : own first) (hissues : Issues s) (hchain : Chain first mid s)
    (h : Unique first mid s) {n now : Nat} {r : TimerWheel.Ticking (Option C)}
    (hr : s.wheel.tick n now = some r) (hfew : s.issued + r.fired.countP recurs < 2 ^ 64) :
    Unique first (mid ++ [.tick now]) (s.afterTick r now).2 := by
  have huses :=
    (TimerWheel.tick_numbered h.issued hissues.nextId hissues.below hr hfew).uses
  have honce := h.once
  constructor
  case issued =>
    rw [issued_afterTick]
    exact h.issued.trans (Nat.le_add_right _ _)
  case once => exact (Nat.le_add_right _ _).trans (huses.trans honce)
  case gone =>
    intro hgone
    change r.wheel.idCount first.id = 0
    by_cases hwaits : FirstWaits s first.id mid
    · -- the first occurrence has fired, and its id with it
      rcases (TimerWheel.tick_waits hown hchain.single (hchain.waiting hwaits) hr).cases with
        ⟨_, hnone⟩ | hfired
      · refine (hgone ((firstWaits_snoc rfl).mpr ⟨hwaits, ?_, by simp, by simp⟩)).elim
        intro f hf
        obtain ⟨node, hnode, rfl⟩ := List.mem_map.mp hf
        exact hnone node hnode
      · have hpos := List.count_pos_iff.mpr (List.mem_map_of_mem (f := TimerNode.id) hfired)
        omega
    · have hzero := h.gone hwaits
      omega

theorem Unique.perform (hown : own first) (hp : s.perform op = some (answer, s'))
    (hfew : s'.issued < 2 ^ 64) (hissues : Issues s) (hchain : Chain first mid s)
    (h : Unique first mid s) : Unique first (mid ++ [op]) s' := by
  rcases perform_cases hp with ⟨time, callback, hcall, rfl⟩ | ⟨timerId, rfl, rfl⟩ |
    ⟨now, n, r, rfl, hr, rfl⟩ | ⟨rfl, rfl⟩
  · rw [issued_afterSchedule] at hfew
    exact h.schedule hcall hfew hissues
  · exact h.cancel timerId
  · rw [issued_afterTick] at hfew
    exact h.tick hown hissues hchain hr hfew
  · have hzero : s.wheel.clear.idCount first.id = 0 := s.wheel.idCount_clear
    exact ⟨h.issued, hzero.trans_le (Nat.zero_le 1), fun _ => hzero⟩

/-! ## Whether the cancellation stops the timer -/

theorem chain_start {s₀ s₁ : Watched (Option C)} {i : Nat}
    (hrec : s₀.perform (.scheduleRecurring i none) = some (.scheduled timerId, s₁))
    (habsent : s₀.wheel.ownCount = 0) (hfired : ∀ f ∈ s₀.fired, own f.2 = false) :
    ∃ first, own first ∧ first.id = timerId ∧ Chain first [] s₁ ∧
      (s₁.issued < 2 ^ 64 → Issues s₀ → Unique first [] s₁) := by
  have hresult := Option.some.inj hrec
  obtain rfl : s₀.wheel.next_timer_id_ = timerId :=
    WheelAnswer.scheduled.inj (congrArg Prod.fst hresult)
  obtain rfl : (s₀.afterSchedule (s₀.wheel.scheduleRecurring i none)
      (wrap (s₀.wheel.current_tick_ + i)) (.recurring s₀.wheel.next_timer_id_ i none)).2 = s₁ :=
    congrArg Prod.snd hresult
  refine ⟨⟨s₀.wheel.next_timer_id_, wrap (s₀.wheel.current_tick_ + i),
    .recurring s₀.wheel.next_timer_id_ i none⟩, rfl, rfl, ?_, ?_⟩
  · constructor
    · change (s₀.wheel.emplace _ _).2.ownCount ≤ 1
      unfold TimerWheel.ownCount at habsent ⊢
      rw [TimerWheel.pendingNodes_emplace, Multiset.countP_cons, habsent]
      exact Nat.le_refl 1
    · intro _
      change _ ∈ (s₀.wheel.emplace _ _).2.pendingNodes
      rw [TimerWheel.pendingNodes_emplace]
      exact Multiset.mem_cons_self _ _
  · intro hfew hissues
    rw [issued_afterSchedule] at hfew
    have hid := hissues.next_eq hfew
    have hnone : s₀.wheel.idCount s₀.wheel.next_timer_id_ = 0 := by
      rw [TimerWheel.idCount_eq_zero]
      intro node hnode heq
      have hle := hissues.below node hnode
      omega
    constructor
    · rw [issued_afterSchedule]
      exact hid.le
    · change (s₀.wheel.emplace _ _).2.idCount _ ≤ 1
      unfold TimerWheel.idCount at hnone ⊢
      rw [TimerWheel.pendingNodes_emplace, Multiset.map_cons, Multiset.count_cons_self, hnone]
    · intro hgone
      exact (hgone ⟨hfired, by simp, by simp⟩).elim

theorem exec_before (hsize : 0 < size) (hops : ∀ op ∈ ops, Other op)
    (hr : (new (Option C) size hsize).exec ops = some s) :
    s.wheel.ownCount = 0 ∧ (∀ f ∈ s.fired, own f.2 = false) ∧ (s.issued < 2 ^ 64 → Issues s) := by
  have hzero : (new (Option C) size hsize).wheel.ownCount = 0 := by
    have hnone : (new (Option C) size hsize).wheel.pendingNodes = 0 :=
      TimerWheel.pendingNodes_new size hsize
    unfold TimerWheel.ownCount
    rw [hnone]
    rfl
  obtain ⟨habsent, ran, hran, hnone⟩ := exec_absent hops hr hzero
  refine ⟨habsent, ?_, ?_⟩
  · rw [hran]
    exact hnone
  · apply Runs.exec_partial (fun _ (t : Watched (Option C)) => t.issued < 2 ^ 64 → Issues t)
      (fun _ => issues_new hsize) ?_ hr
    intro pre op t t' _ _ ht hstep hfew
    obtain ⟨⟨answer, t''⟩, hp, rfl⟩ := Option.map_eq_some_iff.mp hstep
    exact (ht (Nat.lt_of_le_of_lt (issued_le hp) hfew)).perform hp hfew

theorem exec_between {s₁ s₂ : Watched (Option C)} (hown : own first)
    (hops : ∀ op ∈ mid, Other op) (hr : s₁.exec mid = some s₂) (hchain : Chain first [] s₁)
    (hissues : s₁.issued < 2 ^ 64 → Issues s₁)
    (hunique : s₁.issued < 2 ^ 64 → Unique first [] s₁) :
    Chain first mid s₂ ∧ (s₂.issued < 2 ^ 64 → Issues s₂ ∧ Unique first mid s₂) := by
  apply Runs.exec_partial (fun mid (t : Watched (Option C)) => Chain first mid t ∧
    (t.issued < 2 ^ 64 → Issues t ∧ Unique first mid t)) ?_ ?_ hr
  · exact ⟨hchain, fun hfew => ⟨hissues hfew, hunique hfew⟩⟩
  · intro pre op t t' hpre _ ⟨hchain, hids⟩ hstep
    obtain ⟨⟨answer, t''⟩, hp, rfl⟩ := Option.map_eq_some_iff.mp hstep
    refine ⟨hchain.perform hown (hops op (hpre.subset (by simp))) hp, ?_⟩
    intro hfew
    obtain ⟨hissues, hunique⟩ := hids (Nat.lt_of_le_of_lt (issued_le hp) hfew)
    exact ⟨hissues.perform hp hfew, hunique.perform hown hp hfew hissues hchain⟩

theorem neverRuns_of_absent (habsent : s.wheel.ownCount = 0) : NeverRuns s := by
  intro later hlater s' hs'
  obtain ⟨hzero, hran⟩ := exec_absent hlater hs' habsent
  exact ⟨hran, fun now r hr => (TimerWheel.passes_quiet hr).none hzero⟩

/-- The cancellation finds the first occurrence and leaves none. -/
theorem Chain.stops (h : Chain first mid s)
    (hwaits : FirstWaits s first.id mid) (hlone : NoNamesake s first.id) :
    Stops s first.id := by
  have hmem := h.waiting hwaits
  refine ⟨(s.afterCancel (s.wheel.cancel first.id) first.id).2, ?_, ?_⟩
  · rcases s.wheel.cancel_cases first.id with ⟨_, hnone⟩ | ⟨node, w', hcancel, _⟩
    · exact (hnone first hmem rfl).elim
    · rw [Watched.perform, hcancel]
      rfl
  · apply neverRuns_of_absent
    change (s.wheel.cancel first.id).2.ownCount = 0
    rcases s.wheel.cancel_cases first.id with ⟨_, hnone⟩ | ⟨node, w', hcancel, hid, hpending, _⟩
    · exact (hnone first hmem rfl).elim
    · have hnode : own node := by
        apply hlone node ?_ hid
        rw [hpending]
        exact Multiset.mem_cons_self _ _
      have hsingle := h.single
      rw [hcancel]
      change w'.ownCount = 0
      unfold TimerWheel.ownCount at hsingle ⊢
      rw [hpending, Multiset.countP_cons, if_pos hnode] at hsingle
      omega

theorem Stops.idCount_pos (h : Stops s timerId) : 0 < s.wheel.idCount timerId := by
  obtain ⟨s', hp, _⟩ := h
  rw [Nat.pos_iff_ne_zero]
  intro hzero
  rcases s.wheel.cancel_cases timerId with ⟨hcancel, _⟩ | ⟨node, w', _, hid, hpending, _⟩
  · rw [perform, hcancel] at hp
    cases (Prod.mk.inj (Option.some.inj hp)).1
  · apply TimerWheel.idCount_eq_zero.mp hzero node ?_ hid
    rw [hpending]
    exact Multiset.mem_cons_self _ _

theorem Unique.waits (hown : own first) (hchain : Chain first mid s) (h : Unique first mid s)
    (hstops : Stops s first.id) : FirstWaits s first.id mid ∧ NoNamesake s first.id := by
  have hwaits : FirstWaits s first.id mid := by
    by_contra hgone
    have hpos := hstops.idCount_pos
    have hzero := h.gone hgone
    omega
  refine ⟨hwaits, ?_⟩
  intro node hnode hid
  have honce := h.once
  obtain ⟨others, hothers⟩ := Multiset.exists_cons_of_mem (hchain.waiting hwaits)
  unfold TimerWheel.idCount at honce
  rw [hothers, Multiset.map_cons, Multiset.count_cons_self] at honce
  rw [hothers, Multiset.mem_cons] at hnode
  rcases hnode with rfl | hmem
  · exact hown
  · have hpos : 0 < (others.map TimerNode.id).count first.id := by
      rw [Multiset.count_pos, ← hid]
      exact Multiset.mem_map_of_mem _ hmem
    omega

/-- **In every run, the id that `schedule_recurring` returned stops the timer for
good if its first occurrence still waits; and only then, short of `2 ^ 64` ids.** -/
theorem stops_iff_firstWaits (size : Nat) (hsize : 0 < size) (i timerId : Nat)
    (pre mid : List (WheelOp (Option C))) (hpre : ∀ op ∈ pre, Other op)
    (hmid : ∀ op ∈ mid, Other op) (s₀ s₁ s₂ : Watched (Option C))
    (h₀ : (new (Option C) size hsize).exec pre = some s₀)
    (h₁ : s₀.perform (.scheduleRecurring i none) = some (.scheduled timerId, s₁))
    (h₂ : s₁.exec mid = some s₂) :
    (FirstWaits s₂ timerId mid ∧ NoNamesake s₂ timerId → Stops s₂ timerId) ∧
    (s₂.issued < 2 ^ 64 → Stops s₂ timerId →
      FirstWaits s₂ timerId mid ∧ NoNamesake s₂ timerId) := by
  obtain ⟨habsent, hfired, hissues₀⟩ := exec_before hsize hpre h₀
  obtain ⟨first, hown, rfl, hstart, hunique⟩ := chain_start h₁ habsent hfired
  have hearlier : s₁.issued < 2 ^ 64 → Issues s₀ := by
    intro hfew
    exact hissues₀ (Nat.lt_of_le_of_lt (issued_le h₁) hfew)
  obtain ⟨hchain, hids⟩ := exec_between hown hmid h₂ hstart
    (fun hfew => (hearlier hfew).perform h₁ hfew) (fun hfew => hunique hfew (hearlier hfew))
  constructor
  · intro ⟨hwaits, hlone⟩
    exact hchain.stops hwaits hlone
  · intro hfew hstops
    exact (hids hfew).2.waits hown hchain hstops

/-- Before the timer is set up another one is, and time passes. -/
def setUpAfter : List (WheelOp (Option Unit)) := [.schedule 1000000 (some ()), .tick 500000]

/-- A timer that recurs meanwhile, and a tick in which both others fire. -/
def othersFire : List (WheelOp (Option Unit)) :=
  [.scheduleRecurring 2000000 (some ()), .tick 3500000]

theorem stops_iff_firstWaits_othersFire : ∃ s₀ s₁ s₂,
    (new (Option Unit) TimerWheel.defaultWheelSize (by decide)).exec setUpAfter = some s₀ ∧
    s₀.perform (.scheduleRecurring 5000000 none) = some (.scheduled 2, s₁) ∧
    s₁.exec othersFire = some s₂ ∧ s₂.fired.map (fun f => f.2.id) = [1, 3] ∧
    s₂.wheel.pendingCount = 2 ∧ Stops s₂ 2 := by
  have hrun : ((new (Option Unit) TimerWheel.defaultWheelSize (by decide)).execIn 20
      setUpAfter).bind (fun s₀ => (s₀.performIn 20 (.scheduleRecurring 5000000 none)).bind
        fun r₁ => (r₁.2.execIn 20 othersFire).map fun s₂ =>
          (r₁.1, s₂.fired.map (fun f => f.2.id), s₂.wheel.pendingCount,
            s₂.fired.all (fun f => !own f.2),
            (List.range s₂.wheel.wheel_size_).all fun b =>
              (s₂.wheel.wheels_ b).all fun node => node.id != 2 || own node)) =
      some (.scheduled 2, [1, 3], 2, true, true) := by decide +kernel
  obtain ⟨s₀, h₀, hrun⟩ := Option.bind_eq_some_iff.mp hrun
  obtain ⟨⟨answer, s₁⟩, h₁, hrun⟩ := Option.bind_eq_some_iff.mp hrun
  obtain ⟨s₂, h₂, hrun⟩ := Option.map_eq_some_iff.mp hrun
  simp only [Prod.mk.injEq] at hrun
  obtain ⟨rfl, hfired, hcount, hothers, hlone⟩ := hrun
  refine ⟨s₀, s₁, s₂, exec_of_execIn h₀, perform_of_performIn h₁, exec_of_execIn h₂, hfired,
    hcount, ?_⟩
  apply (stops_iff_firstWaits TimerWheel.defaultWheelSize (by decide) 5000000 2 setUpAfter
    othersFire (by simp [setUpAfter, Other, callbackOf]) (by simp [othersFire, Other, callbackOf])
    s₀ s₁ s₂ (exec_of_execIn h₀) (perform_of_performIn h₁) (exec_of_execIn h₂)).1
  constructor
  · refine ⟨?_, by simp [othersFire], by simp [othersFire]⟩
    intro f hf
    simpa using List.all_eq_true.mp hothers f hf
  · intro node hnode hid
    obtain ⟨b, hb, hmem⟩ := TimerWheel.mem_pendingNodes.mp hnode
    have hbucket := List.all_eq_true.mp hlone b (List.mem_range.mpr hb)
    simpa [hid] using List.all_eq_true.mp hbucket node hmem

/-- A timer that has fired once: its id is no longer found. -/
theorem firedTimer_not_stopped : ¬ ∀ (i timerId : Nat) (mid : List (WheelOp (Option Unit)))
    (s₁ s₂ : Watched (Option Unit)), (∀ op ∈ mid, Other op) → .cancel timerId ∉ mid →
    .clear ∉ mid → (new (Option Unit) TimerWheel.defaultWheelSize (by decide)).perform
      (.scheduleRecurring i none) = some (.scheduled timerId, s₁) →
    s₁.exec mid = some s₂ → Stops s₂ timerId := by
  intro hall
  let w := ((TimerWheel.new (Option Unit) TimerWheel.defaultWheelSize
    (by decide)).scheduleRecurring 2000000 none).2
  have hrun : (w.tick 10 3000000).map (fun r => (r.wheel.cancel 1).1) = some false := by
    decide +kernel
  obtain ⟨r, hr, hfalse⟩ := Option.map_eq_some_iff.mp hrun
  have hstops := hall 2000000 1 [.tick 3000000] _ _ (by simp [Other, callbackOf]) (by simp)
    (by simp) rfl (by
      rw [exec, Runs.exec, perform_tick_eq_some.mpr ⟨10, r, hr, rfl⟩]
      rfl)
  obtain ⟨s', hcancel, _⟩ := hstops
  have hfound : (r.wheel.cancel 1).1 = true :=
    WheelAnswer.cancelled.inj (congrArg Prod.fst (Option.some.inj hcancel))
  rw [hfalse] at hfound
  cases hfound

end Watched

end UltraHft.Core
