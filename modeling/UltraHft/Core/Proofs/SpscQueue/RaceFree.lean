import UltraHft.Core.Proofs.SpscQueue.Ordered

/-!
# The queue is race free and keeps its elements in order

Over whole runs with the memory orders of the code: no copy of an element races,
and what is popped is a prefix of what is pushed, however old the indices are
that the clients load.
-/

namespace UltraHft.Core.SpscQueue

open UltraHft.Lib UltraHft.Lib.ReleaseAcquire
open UltraHft.Lib.Linearizability (Event record)

variable {T : Type} {N time : Nat} {s s' : Ordered T} {vals : List T} {c : Nat}
  {tails heads : List Nat} {y : Tally T} {e : Option (Event Client (Op T) (Result T))}

/-- The history of a run from a new queue, with the state it leads to. -/
def orderedExec (N : Nat) (ptr : Nat → T) (steps : List (Action T × Nat)) :
    Option (Ordered T × List (Event Client (Op T) (Result T))) :=
  Runs.exec (record (Ordered.step N)) (.new ptr, []) steps

structure Told (p : PushState T) (q : PopState T) (y : Tally T) (vals : List T) (c : Nat) :
    Prop where
  pushed : y.pushed ++ succeeding p = vals
  pending : ∀ ele, argument p = some ele → y.pending = some ele
  popped : y.popped ++ taken q = vals.take c

/-! ## Calls and returns -/

theorem look_self (s : Ordered T) (i : Client) : s.look i (s.views i) = s := by
  unfold Ordered.look
  rw [Function.update_eq_self]

theorem OrderedInv.producerMoves (h : OrderedInv N s vals c tails heads) {p : PushState T}
    (hcopied : copied p = copied s.producer) (hknows : ∀ j, PushKnows N vals j p) :
    OrderedInv N { s with producer := p } vals c tails heads := by
  obtain ⟨j, hj⟩ := h.producer
  have hcoherent : Memory.Coherent owner s.memory
      (Function.update s.views .producer (s.views .producer)) := by
    rw [Function.update_eq_self]
    exact h.coherent
  have hlooks := h.producerLooks (p := p) (j := j) hcoherent rfl rfl hcopied
    ⟨hj.seen, hj.acquired, hj.bound, hknows j⟩
  rwa [look_self] at hlooks

theorem OrderedInv.consumerMoves (h : OrderedInv N s vals c tails heads) {q : PopState T}
    (hahead : ahead q = ahead s.consumer) (hknows : ∀ k, PopKnows N vals c k q) :
    OrderedInv N { s with consumer := q } vals c tails heads := by
  obtain ⟨k, hk⟩ := h.consumer
  have hcoherent : Memory.Coherent owner s.memory
      (Function.update s.views .consumer (s.views .consumer)) := by
    rw [Function.update_eq_self]
    exact h.coherent
  have hlooks := h.consumerLooks (q := q) (k := k) hcoherent rfl rfl hahead
    ⟨hk.seen, hk.acquired, hk.released, hknows k⟩
  rwa [look_self] at hlooks

theorem ordered_push {ele : T} (h : Ordered.step N s (.push ele, time) = some (s', e)) :
    s.producer = .idle ∧ s' = { s with producer := .loadTail ele } ∧
      e = some (.call .producer (.push ele)) := by
  unfold Ordered.step at h
  cases hpc : s.producer <;> simp only [hpc] at h <;> cases h
  exact ⟨rfl, rfl, rfl⟩

theorem ordered_pushReturn (h : Ordered.step N s (.pushReturn, time) = some (s', e)) :
    ∃ ele ok, s.producer = .done ele ok ∧ s' = { s with producer := .idle } ∧
      e = some (.ret .producer (.pushed ok)) := by
  unfold Ordered.step at h
  cases hpc : s.producer <;> simp only [hpc] at h <;> cases h
  exact ⟨_, _, rfl, rfl, rfl⟩

theorem ordered_pop (h : Ordered.step N s (.pop, time) = some (s', e)) :
    s.consumer = .idle ∧ s' = { s with consumer := .loadTail } ∧
      e = some (.call .consumer .pop) := by
  unfold Ordered.step at h
  cases hpc : s.consumer <;> simp only [hpc] at h <;> cases h
  exact ⟨rfl, rfl, rfl⟩

theorem ordered_popReturn (h : Ordered.step N s (.popReturn, time) = some (s', e)) :
    ∃ r, s.consumer = .done r ∧ s' = { s with consumer := .idle } ∧
      e = some (.ret .consumer (.popped r)) := by
  unfold Ordered.step at h
  cases hpc : s.consumer <;> simp only [hpc] at h <;> cases h
  exact ⟨_, rfl, rfl, rfl⟩

/-! ## Runs -/

theorem Told.step (ht : Told s.producer s.consumer y vals c)
    (h : OrderedInv N s vals c tails heads) {a : Action T}
    (hstep : Ordered.step N s (a, time) = some (s', e)) :
    ∃ vals' c' tails' heads', OrderedInv N s' vals' c' tails' heads' ∧
      Told s'.producer s'.consumer (e.toList.foldl Tally.see y) vals' c' := by
  obtain ⟨hpushed, hpending, hpopped⟩ := ht
  cases a with
  | push ele =>
      obtain ⟨hpc, rfl, rfl⟩ := ordered_push hstep
      rw [hpc] at hpushed
      exact ⟨vals, c, tails, heads, h.producerMoves (by rw [hpc]; rfl) (fun _ => trivial),
        hpushed, fun x hx => hx, hpopped⟩
  | pushReturn =>
      obtain ⟨ele, ok, hpc, rfl, rfl⟩ := ordered_pushReturn hstep
      rw [hpc] at hpushed hpending
      refine ⟨vals, c, tails, heads, h.producerMoves (by rw [hpc]; rfl) (fun _ => trivial), ?_⟩
      cases ok with
      | true =>
          refine ⟨?_, fun x hx => (by cases hx), hpopped⟩
          rw [← hpushed]
          simp [Tally.see, hpending ele rfl, succeeding]
      | false => exact ⟨hpushed, fun x hx => (by cases hx), hpopped⟩
  | pop =>
      obtain ⟨hpc, rfl, rfl⟩ := ordered_pop hstep
      rw [hpc] at hpopped
      exact ⟨vals, c, tails, heads, h.consumerMoves (by rw [hpc]; rfl) (fun _ => trivial),
        hpushed, hpending, hpopped⟩
  | popReturn =>
      obtain ⟨r, hpc, rfl, rfl⟩ := ordered_popReturn hstep
      rw [hpc] at hpopped
      refine ⟨vals, c, tails, heads, h.consumerMoves (by rw [hpc]; rfl) (fun _ => trivial),
        hpushed, hpending, ?_⟩
      rw [← hpopped]
      cases r <;> simp [Tally.see, taken]
  | pushStep =>
      obtain ⟨t, hmove, heq⟩ := Option.map_eq_some_iff.mp hstep
      obtain ⟨rfl, rfl⟩ := Prod.mk.inj heq
      rcases h.pushMove (orderedPush hmove) with
        ⟨hinv, hconsumer, hsucceeding, hargument⟩ | ⟨ele, slot, hpc, hpc', hconsumer, hinv⟩
      · refine ⟨vals, c, tails, heads, hinv, ?_, ?_, ?_⟩
        · rw [hsucceeding]
          exact hpushed
        · rw [hargument]
          exact hpending
        · rw [hconsumer]
          exact hpopped
      · rw [hpc] at hpushed hpending
        refine ⟨_, c, _, heads, hinv, ?_, ?_, ?_⟩
        · rw [hpc', ← hpushed]
          simp [succeeding]
        · rw [hpc']
          exact hpending
        · rw [hconsumer, List.take_append_of_le_length h.released]
          exact hpopped
  | popStep =>
      obtain ⟨t, hmove, heq⟩ := Option.map_eq_some_iff.mp hstep
      obtain ⟨rfl, rfl⟩ := Prod.mk.inj heq
      rcases h.popMove (orderedPop hmove) with
        ⟨hinv, hproducer, htaken⟩ | ⟨i, ele, hpc, hpc', hproducer, hele, hinv⟩
      · refine ⟨vals, c, tails, heads, hinv, ?_, ?_, ?_⟩
        · rw [hproducer]
          exact hpushed
        · rw [hproducer]
          exact hpending
        · rw [htaken]
          exact hpopped
      · rw [hpc] at hpopped
        refine ⟨vals, c + 1, tails, _, hinv, ?_, ?_, ?_⟩
        · rw [hproducer]
          exact hpushed
        · rw [hproducer]
          exact hpending
        · rw [hpc', List.take_add_one, hele, ← hpopped]
          simp [taken]

theorem orderedExec_told (hN : 0 < N) {ptr : Nat → T} {steps : List (Action T × Nat)}
    {h : List (Event Client (Op T) (Result T))} (hrun : orderedExec N ptr steps = some (s, h)) :
    ∃ vals c tails heads, OrderedInv N s vals c tails heads ∧
      Told s.producer s.consumer (tally h) vals c := by
  apply Runs.exec_partial
    (fun _ (t : Ordered T × List (Event Client (Op T) (Result T))) =>
      ∃ vals c tails heads, OrderedInv N t.1 vals c tails heads ∧
        Told t.1.producer t.1.consumer (tally t.2) vals c) ?_ ?_ hrun
  · exact ⟨[], 0, [0], [0], OrderedInv.new hN ptr, rfl, fun _ h => (by cases h), rfl⟩
  · rintro pre ⟨a, time⟩ t t' - - ⟨vals, c, tails, heads, hinv, ht⟩ hrec
    obtain ⟨e, he, hhist⟩ := Linearizability.record_eq_some hrec
    rw [hhist, tally, List.foldl_append]
    exact ht.step hinv he

/-- **Release and acquire are enough.** In every run of one producer and one
consumer with the memory orders of the code, whatever messages their loads take:
no copy of an element races, the elements popped are a prefix of the elements
pushed, and at most `N - 1` elements are in between. -/
theorem orderedExec_fifo (k : Nat) (ptr : Nat → T) (steps : List (Action T × Nat)) (s : Ordered T)
    (h : List (Event Client (Op T) (Result T)))
    (hrun : orderedExec (2 ^ k) ptr steps = some (s, h)) :
    ¬ s.Races ∧
      (tally h).popped ++ taken s.consumer <+: (tally h).pushed ++ succeeding s.producer ∧
      ((tally h).pushed ++ succeeding s.producer).length <
        ((tally h).popped ++ taken s.consumer).length + 2 ^ k := by
  obtain ⟨vals, c, tails, heads, hinv, ht⟩ := orderedExec_told (Nat.two_pow_pos k) hrun
  refine ⟨hinv.not_races, ?_, ?_⟩
  · rw [ht.pushed, ht.popped]
    exact List.take_prefix c vals
  · rw [ht.pushed, ht.popped, List.length_take, Nat.min_eq_left hinv.released]
    exact hinv.bound

/-- A pop between the copy and the store of a push, one that loads an old tail
afterwards, and one that finds the element. -/
def oldTail : List (Action Nat × Nat) :=
  [(.push 7, 0), (.pushStep, 0), (.pushStep, 0), (.pushStep, 0), (.pop, 0), (.popStep, 0),
    (.popStep, 0), (.popReturn, 0), (.pushStep, 5), (.pushReturn, 0), (.pop, 0), (.popStep, 0),
    (.popStep, 0), (.popReturn, 0), (.pop, 0), (.popStep, 5), (.popStep, 0), (.popStep, 0),
    (.popStep, 3), (.popReturn, 0)]

theorem orderedExec_fifo_oldTail : ∃ s h, orderedExec 2 (fun _ => 0) oldTail = some (s, h) ∧
    ¬ s.Races ∧ (tally h).popped ++ taken s.consumer <+:
      (tally h).pushed ++ succeeding s.producer := by
  obtain ⟨⟨s, h⟩, hrun⟩ := Option.isSome_iff_exists.mp
    (show (orderedExec 2 (fun _ => 0) oldTail).isSome from by decide)
  have hfifo := orderedExec_fifo 1 (fun _ => 0) oldTail s h hrun
  exact ⟨s, h, hrun, hfifo.1, hfifo.2.1⟩

/-! ## Interleavings -/

/-- The memory in which all clients find what was stored last. -/
structure Latest (t : System T) (s : Ordered T) : Prop where
  coherent : Memory.Coherent owner s.memory s.views
  producer : s.producer = t.producer
  consumer : s.consumer = t.consumer
  data : s.memory.data = t.queue.ptr
  tail : ∃ m, s.memory.history .tail (s.views .producer (.inl .tail)) = some m ∧
    m.value = t.queue.tail_
  head : ∃ m, s.memory.history .head (s.views .consumer (.inl .head)) = some m ∧
    m.value = t.queue.head_

theorem Latest.new (ptr : Nat → T) : Latest (SpscQueue.new ptr) (.new ptr) :=
  ⟨Memory.coherent_initial _ _, rfl, rfl, rfl, ⟨_, rfl, rfl⟩, ⟨_, rfl, rfl⟩⟩

section Latest

variable {t t' : System T}

theorem load_last {mem : Memory Index Nat Client Nat T} {views : Client → View Index Client}
    {a : Index} {m : Message Index Client Nat} (hc : Memory.Coherent owner mem views)
    (hm : mem.history a (views (owner a) (.inl a)) = some m) (order : LoadOrder) (i : Client) :
    ∃ view, mem.load order a (views (owner a) (.inl a)) (views i) = some (m.value, view) := by
  refine ⟨_, (if_pos ?_).trans (by rw [hm]; rfl)⟩
  exact hc.thread i (.inl a)

theorem store_next {mem : Memory Index Nat Client Nat T} {views : Client → View Index Client}
    {a : Index} (hc : Memory.Coherent owner mem views) (order : StoreOrder) (v : Nat) :
    ∃ mem' view, mem.store order a (views (owner a) (.inl a) + 1) v (views (owner a)) =
      some (mem', view) := by
  refine ⟨_, _, if_pos ⟨Nat.lt_succ_self _, ?_⟩⟩
  cases hm : mem.history a (views (owner a) (.inl a) + 1) with
  | none => rfl
  | some m =>
      obtain ⟨hle, htime⟩ := hc.message _ _ m hm
      have hlt : m.view (.inl a) ≤ views (owner a) (.inl a) := hle (.inl a)
      omega

theorem store_seen {mem mem' : Memory Index Nat Client Nat T} {a : Index} {order : StoreOrder}
    {v : Nat} {view view' : View Index Client}
    (h : mem.store order a time v view = some (mem', view')) :
    mem'.history a (view' (.inl a)) = some ⟨v, order.leaves a time view'⟩ := by
  obtain ⟨-, -, hview, rfl⟩ := Memory.store_cases h
  have htime : view' (.inl a) = time := by
    rw [hview, Function.update_self]
  dsimp only
  rw [htime, Function.update_self, Function.update_self]

theorem Latest.looks (hl : Latest t s) {a : Index} {order : LoadOrder} {i : Client} {v : Nat}
    {view : View Index Client} (hload : s.memory.load order a time (s.views i) = some (v, view))
    (hmemory : s'.memory = s.memory) (hviews : s'.views = Function.update s.views i view)
    (hqueue : t'.queue = t.queue) (hproducer : s'.producer = t'.producer)
    (hconsumer : s'.consumer = t'.consumer) : Latest t' s' := by
  obtain ⟨hown, -⟩ := hl.coherent.load_own hload
  have hviews' : ∀ b, s'.views (owner b) (.inl b) = s.views (owner b) (.inl b) := by
    intro b
    rw [hviews]
    by_cases hb : owner b = i
    · rw [hb, Function.update_self, hown b hb]
    · rw [Function.update_of_ne hb]
  refine ⟨?_, hproducer, hconsumer, ?_, ?_, ?_⟩
  · rw [hmemory, hviews]
    exact hl.coherent.load hload
  · rw [hmemory, hqueue]
    exact hl.data
  · rw [hmemory, hqueue]
    exact hviews' .tail ▸ hl.tail
  · rw [hmemory, hqueue]
    exact hviews' .head ▸ hl.head

theorem Latest.accesses (hl : Latest t s) {i : Client}
    (hcoherent : Memory.Coherent owner s'.memory s'.views)
    (hhistory : s'.memory.history = s.memory.history)
    (hviews : s'.views = Function.update s.views i (Memory.advance i (s.views i)))
    (hdata : s'.memory.data = t'.queue.ptr) (htail : t'.queue.tail_ = t.queue.tail_)
    (hhead : t'.queue.head_ = t.queue.head_) (hproducer : s'.producer = t'.producer)
    (hconsumer : s'.consumer = t'.consumer) : Latest t' s' := by
  have hviews' : ∀ b, s'.views (owner b) (.inl b) = s.views (owner b) (.inl b) := by
    intro b
    rw [hviews]
    by_cases hb : owner b = i
    · rw [hb, Function.update_self, Memory.advance, Function.update_of_ne (fun heq => by cases heq)]
    · rw [Function.update_of_ne hb]
  refine ⟨hcoherent, hproducer, hconsumer, hdata, ?_, ?_⟩
  · rw [hhistory, htail]
    exact hviews' .tail ▸ hl.tail
  · rw [hhistory, hhead]
    exact hviews' .head ▸ hl.head

theorem Latest.pushStep (hl : Latest t s) (hstep : SpscQueue.pushStep N t = some t') :
    ∃ time s', s.pushStep N time = some s' ∧ Latest t' s' := by
  have hpush : ∀ {time : Nat} {p : PushState T} {r : Option (Ordered T)}, t.producer = p →
      ({ s with producer := p } : Ordered T).pushStep N time = r → s.pushStep N time = r := by
    rintro time p r rfl hr
    rwa [← hl.producer] at hr
  obtain ⟨tail, htail, hlast⟩ := hl.tail
  obtain ⟨head, hhead, hfirst⟩ := hl.head
  cases pushStep_move hstep with
  | loadTail ele hpc =>
      obtain ⟨view, hload⟩ := load_last (a := .tail) hl.coherent htail .relaxed .producer
      refine ⟨_, _, hpush hpc (congrArg (Option.bind · _) hload), ?_⟩
      exact hl.looks hload rfl rfl rfl (congrArg (PushState.loadHead ele) hlast) hl.consumer
  | full ele i hpc hfull =>
      obtain ⟨view, hload⟩ := load_last (a := .head) hl.coherent hhead .acquire .producer
      rw [← hfirst] at hfull
      refine ⟨_, _, hpush hpc ((congrArg (Option.bind · _) hload).trans (if_pos hfull)), ?_⟩
      exact hl.looks hload rfl rfl rfl rfl hl.consumer
  | room ele i hpc hroom =>
      obtain ⟨view, hload⟩ := load_last (a := .head) hl.coherent hhead .acquire .producer
      rw [← hfirst] at hroom
      refine ⟨_, _, hpush hpc ((congrArg (Option.bind · _) hload).trans (if_neg hroom)), ?_⟩
      exact hl.looks hload rfl rfl rfl rfl hl.consumer
  | copy ele i hpc =>
      refine ⟨0, _, hpush hpc rfl, ?_⟩
      exact hl.accesses (hl.coherent.writeData .producer i ele) rfl rfl
        (congrArg (Function.update · i ele) hl.data) rfl rfl rfl hl.consumer
  | store ele i hpc =>
      obtain ⟨memory, view, hstore⟩ :=
        store_next (a := .tail) hl.coherent .release ((i + 1) % N)
      refine ⟨_, _, hpush hpc (congrArg (Option.bind · _) hstore), ?_⟩
      have hcoherent := hl.coherent.store (i := .producer) rfl hstore
      have hseen := store_seen hstore
      obtain ⟨-, -, -, rfl⟩ := Memory.store_cases hstore
      exact ⟨hcoherent, rfl, hl.consumer, hl.data, ⟨_, hseen, rfl⟩, head, hhead, hfirst⟩

theorem Latest.popStep (hl : Latest t s) (hstep : SpscQueue.popStep N t = some t') :
    ∃ time s', s.popStep N time = some s' ∧ Latest t' s' := by
  have hpop : ∀ {time : Nat} {q : PopState T} {r : Option (Ordered T)}, t.consumer = q →
      ({ s with consumer := q } : Ordered T).popStep N time = r → s.popStep N time = r := by
    rintro time q r rfl hr
    rwa [← hl.consumer] at hr
  obtain ⟨tail, htail, hlast⟩ := hl.tail
  obtain ⟨head, hhead, hfirst⟩ := hl.head
  cases popStep_move hstep with
  | loadTail hpc =>
      obtain ⟨view, hload⟩ := load_last (a := .tail) hl.coherent htail .acquire .consumer
      refine ⟨_, _, hpop hpc (congrArg (Option.bind · _) hload), ?_⟩
      exact hl.looks hload rfl rfl rfl hl.producer (congrArg PopState.loadHead hlast)
  | empty hpc =>
      obtain ⟨view, hload⟩ := load_last (a := .head) hl.coherent hhead .relaxed .consumer
      refine ⟨_, _, hpop hpc ((congrArg (Option.bind · _) hload).trans (if_pos hfirst.symm)), ?_⟩
      exact hl.looks hload rfl rfl rfl hl.producer rfl
  | elements i hpc hne =>
      obtain ⟨view, hload⟩ := load_last (a := .head) hl.coherent hhead .relaxed .consumer
      rw [← hfirst] at hne
      refine ⟨_, _, hpop hpc ((congrArg (Option.bind · _) hload).trans (if_neg hne)), ?_⟩
      exact hl.looks hload rfl rfl rfl hl.producer (congrArg PopState.copy hfirst)
  | copy i hpc =>
      refine ⟨0, _, hpop hpc rfl, ?_⟩
      exact hl.accesses (hl.coherent.readData .consumer i) rfl rfl hl.data rfl rfl hl.producer
        (congrArg (fun ptr => PopState.store i (ptr i)) hl.data)
  | store i ele hpc =>
      obtain ⟨memory, view, hstore⟩ :=
        store_next (a := .head) hl.coherent .release ((i + 1) % N)
      refine ⟨_, _, hpop hpc (congrArg (Option.bind · _) hstore), ?_⟩
      have hcoherent := hl.coherent.store (i := .consumer) rfl hstore
      have hseen := store_seen hstore
      obtain ⟨-, -, -, rfl⟩ := Memory.store_cases hstore
      exact ⟨hcoherent, hl.producer, rfl, hl.data, ⟨tail, htail, hlast⟩, ⟨_, hseen, rfl⟩⟩

theorem Latest.step (hl : Latest t s) {a : Action T} (hstep : SpscQueue.step N t a = some (t', e)) :
    ∃ time s', Ordered.step N s (a, time) = some (s', e) ∧ Latest t' s' := by
  cases a with
  | push ele =>
      obtain ⟨hpc, rfl, rfl⟩ := step_push hstep
      refine ⟨0, { s with producer := .loadTail ele }, ?_, hl.coherent, rfl, hl.consumer, hl.data,
        hl.tail, hl.head⟩
      rw [Ordered.step, hl.producer, hpc]
  | pushReturn =>
      obtain ⟨ele, ok, hpc, rfl, rfl⟩ := step_pushReturn hstep
      refine ⟨0, { s with producer := .idle }, ?_, hl.coherent, rfl, hl.consumer, hl.data,
        hl.tail, hl.head⟩
      rw [Ordered.step, hl.producer, hpc]
  | pop =>
      obtain ⟨hpc, rfl, rfl⟩ := step_pop hstep
      refine ⟨0, { s with consumer := .loadTail }, ?_, hl.coherent, hl.producer, rfl, hl.data,
        hl.tail, hl.head⟩
      rw [Ordered.step, hl.consumer, hpc]
  | popReturn =>
      obtain ⟨r, hpc, rfl, rfl⟩ := step_popReturn hstep
      refine ⟨0, { s with consumer := .idle }, ?_, hl.coherent, hl.producer, rfl, hl.data,
        hl.tail, hl.head⟩
      rw [Ordered.step, hl.consumer, hpc]
  | pushStep =>
      obtain ⟨hmove, rfl⟩ := step_pushStep hstep
      obtain ⟨time, s', hs', hl'⟩ := hl.pushStep hmove
      exact ⟨time, s', by rw [Ordered.step, hs']; rfl, hl'⟩
  | popStep =>
      obtain ⟨hmove, rfl⟩ := step_popStep hstep
      obtain ⟨time, s', hs', hl'⟩ := hl.popStep hmove
      exact ⟨time, s', by rw [Ordered.step, hs']; rfl, hl'⟩

/-- Every interleaving of the plain accesses is a run with the memory orders. -/
theorem exec_ordered {ptr : Nat → T} {actions : List (Action T)}
    {h : List (Event Client (Op T) (Result T))} (hrun : exec N ptr actions = some (t, h)) :
    ∃ times s, times.length = actions.length ∧
      orderedExec N ptr (actions.zip times) = some (s, h) ∧ Latest t s := by
  induction actions using List.reverseRecOn generalizing t h with
  | nil =>
      obtain ⟨rfl, rfl⟩ := Prod.mk.inj (Option.some.inj hrun)
      exact ⟨[], .new ptr, rfl, rfl, .new ptr⟩
  | append_singleton actions a ih =>
      rw [exec, Runs.exec_snoc] at hrun
      obtain ⟨⟨t₀, h₀⟩, hbefore, hrec⟩ := Option.bind_eq_some_iff.mp hrun
      obtain ⟨e, hstep, rfl⟩ := Linearizability.record_eq_some hrec
      obtain ⟨times, s₀, hlength, hrun₀, hl⟩ := ih hbefore
      obtain ⟨time, s', hs', hl'⟩ := hl.step hstep
      refine ⟨times ++ [time], s', by simp [hlength], ?_, hl'⟩
      rw [List.zip_append hlength.symm, orderedExec, List.zip_cons_cons, List.zip_nil_left,
        Runs.exec_snoc, ← orderedExec, hrun₀, Option.bind_some, record, hs']
      rfl

end Latest

end UltraHft.Core.SpscQueue
