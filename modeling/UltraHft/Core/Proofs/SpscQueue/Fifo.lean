import UltraHft.Core.Proofs.SpscQueue.Linearizable

/-!
# What the clients of the queue can rely on

From the history alone: the elements popped are a prefix of the elements
pushed.  From the states passed through: a push fails only when the queue was
full during the call, a pop only when it was empty during the call, and the two
clients never touch one slot at a time.
-/

namespace UltraHft.Core.SpscQueue

open UltraHft.Lib
open UltraHft.Lib.Linearizability (Event Linearizable record)

variable {T : Type*}

/-- The elements of successful pushes and pops in a history, and the argument
of the push in progress. -/
structure Tally (T : Type*) where
  pushed : List T
  pending : Option T
  popped : List T

namespace Tally

def new : Tally T := { pushed := [], pending := none, popped := [] }

def see (y : Tally T) : Event Client (Op T) (Result T) → Tally T
  | .call _ (.push ele) => { y with pending := some ele }
  | .call _ .pop => y
  | .ret _ (.pushed true) =>
      { y with pushed := y.pushed ++ y.pending.toList, pending := none }
  | .ret _ (.pushed false) => { y with pending := none }
  | .ret _ (.popped ele) => { y with popped := y.popped ++ ele.toList }

end Tally

def tally (h : List (Event Client (Op T) (Result T))) : Tally T := h.foldl Tally.see Tally.new

def argument : PushState T → Option T
  | .idle => none
  | .loadTail ele => some ele
  | .loadHead ele _ => some ele
  | .copy ele _ => some ele
  | .store ele _ => some ele
  | .done ele _ => some ele

def succeeding : PushState T → List T
  | .done ele true => [ele]
  | _ => []

def taken : PopState T → List T
  | .done (some ele) => [ele]
  | _ => []

def held (N : Nat) (q : SpscQueue T) : Nat := (q.tail_ + N - q.head_) % N

/-! ## The history and the counts -/

structure Tallied (N : Nat) (s : System T) (y : Tally T) (vals : List T) (c : Nat) : Prop
    extends Inv N s vals c where
  pushed : y.pushed ++ succeeding s.producer = vals
  pending : ∀ ele, argument s.producer = some ele → y.pending = some ele
  popped : y.popped ++ taken s.consumer = vals.take c

section Tallied

variable {N : Nat} {s s' : System T} {y : Tally T} {vals : List T} {c : Nat}

theorem Tallied.new (hN : 0 < N) (ptr : Nat → T) :
    Tallied N (SpscQueue.new ptr) Tally.new [] 0 :=
  ⟨Inv.new hN ptr, rfl, fun _ h => (by cases h), rfl⟩

theorem Tallied.stay (h : Tallied N s y vals c) (hinv : Inv N s' vals c)
    (hpushed : succeeding s'.producer = succeeding s.producer)
    (hpending : argument s'.producer = argument s.producer)
    (hpopped : taken s'.consumer = taken s.consumer) : Tallied N s' y vals c where
  toInv := hinv
  pushed := by rw [hpushed, h.pushed]
  pending := by
    rw [hpending]
    exact h.pending
  popped := by rw [hpopped, h.popped]

theorem Tallied.pushStep (h : Tallied N s y vals c) (hstep : SpscQueue.pushStep N s = some s') :
    Tallied N s' y (vals ++ stores s .pushStep) c := by
  have hinv := h.toInv.pushStep_inv hstep
  cases pushStep_move hstep with
  | loadTail ele hpc =>
      simp only [stores, hpc, List.append_nil] at hinv ⊢
      exact h.stay hinv (by rw [hpc]; rfl) (by rw [hpc]; rfl) rfl
  | full ele t hpc hfull =>
      simp only [stores, hpc, List.append_nil] at hinv ⊢
      exact h.stay hinv (by rw [hpc]; rfl) (by rw [hpc]; rfl) rfl
  | room ele t hpc hroom =>
      simp only [stores, hpc, List.append_nil] at hinv ⊢
      exact h.stay hinv (by rw [hpc]; rfl) (by rw [hpc]; rfl) rfl
  | copy ele t hpc =>
      simp only [stores, hpc, List.append_nil] at hinv ⊢
      exact h.stay hinv (by rw [hpc]; rfl) (by rw [hpc]; rfl) rfl
  | store ele t hpc =>
      have hpushed := h.pushed
      have hpending := h.pending
      rw [hpc] at hpushed hpending
      simp only [stores, hpc] at hinv ⊢
      refine ⟨hinv, ?_, hpending, ?_⟩
      · rw [← hpushed]
        simp [succeeding]
      · rw [h.popped, List.take_append_of_le_length h.released]

theorem Tallied.popStep (h : Tallied N s y vals c) (hstep : SpscQueue.popStep N s = some s') :
    Tallied N s' y vals (c + releases s .popStep) := by
  have hinv := h.toInv.popStep_inv hstep
  cases popStep_move hstep with
  | loadTail hpc =>
      simp only [releases, hpc, Nat.add_zero] at hinv ⊢
      exact h.stay hinv rfl rfl (by rw [hpc]; rfl)
  | empty hpc =>
      simp only [releases, hpc, Nat.add_zero] at hinv ⊢
      exact h.stay hinv rfl rfl (by rw [hpc]; rfl)
  | elements t hpc hne =>
      simp only [releases, hpc, Nat.add_zero] at hinv ⊢
      exact h.stay hinv rfl rfl (by rw [hpc]; rfl)
  | copy i hpc =>
      simp only [releases, hpc, Nat.add_zero] at hinv ⊢
      exact h.stay hinv rfl rfl (by rw [hpc]; rfl)
  | store i ele hpc =>
      have hpopped := h.popped
      have hcons := h.consumer
      rw [hpc] at hpopped hcons
      obtain ⟨-, hele⟩ : i = s.queue.head_ ∧ vals[c]? = some ele := hcons
      simp only [releases, hpc] at hinv ⊢
      refine ⟨hinv, h.pushed, h.pending, ?_⟩
      rw [List.take_add_one, hele, ← hpopped]
      simp [taken]

theorem Tallied.step (h : Tallied N s y vals c) {a : Action T}
    {e : Option (Event Client (Op T) (Result T))}
    (hstep : SpscQueue.step N s a = some (s', e)) :
    Tallied N s' (e.toList.foldl Tally.see y) (vals ++ stores s a) (c + releases s a) := by
  have hinv := h.toInv.step_inv hstep
  have hpushed := h.pushed
  have hpending := h.pending
  have hpopped := h.popped
  cases a with
  | pushStep =>
      obtain ⟨hmove, rfl⟩ := step_pushStep hstep
      exact h.pushStep hmove
  | popStep =>
      obtain ⟨hmove, rfl⟩ := step_popStep hstep
      simpa [stores] using h.popStep hmove
  | push ele =>
      obtain ⟨hpc, rfl, rfl⟩ := step_push hstep
      rw [hpc] at hpushed
      simp only [stores, releases, List.append_nil, Nat.add_zero] at hinv ⊢
      exact ⟨hinv, hpushed, fun x hx => hx, hpopped⟩
  | pushReturn =>
      obtain ⟨ele, ok, hpc, rfl, rfl⟩ := step_pushReturn hstep
      rw [hpc] at hpushed hpending
      simp only [stores, releases, List.append_nil, Nat.add_zero] at hinv ⊢
      cases ok with
      | true =>
          refine ⟨hinv, ?_, fun x hx => (by cases hx), hpopped⟩
          rw [← hpushed]
          simp [Tally.see, hpending ele rfl, succeeding]
      | false => exact ⟨hinv, hpushed, fun x hx => (by cases hx), hpopped⟩
  | pop =>
      obtain ⟨hpc, rfl, rfl⟩ := step_pop hstep
      rw [hpc] at hpopped
      simp only [stores, releases, List.append_nil, Nat.add_zero] at hinv ⊢
      exact ⟨hinv, hpushed, hpending, hpopped⟩
  | popReturn =>
      obtain ⟨r, hpc, rfl, rfl⟩ := step_popReturn hstep
      rw [hpc] at hpopped
      simp only [stores, releases, List.append_nil, Nat.add_zero] at hinv ⊢
      refine ⟨hinv, hpushed, hpending, ?_⟩
      rw [← hpopped]
      cases r <;> simp [Tally.see, taken]

theorem exec_tallied (hN : 0 < N) {ptr : Nat → T} {actions : List (Action T)}
    {h : List (Event Client (Op T) (Result T))} (hrun : exec N ptr actions = some (s, h)) :
    ∃ vals c, Tallied N s (tally h) vals c := by
  apply Runs.exec_partial
    (fun _ (t : System T × List (Event Client (Op T) (Result T))) =>
      ∃ vals c, Tallied N t.1 (tally t.2) vals c) ?_ ?_ hrun
  · exact ⟨[], 0, Tallied.new hN ptr⟩
  · rintro pre a t t' - - ⟨vals, c, ht⟩ hrec
    obtain ⟨e, he, hhist⟩ := Linearizability.record_eq_some hrec
    refine ⟨vals ++ stores t.1 a, c + releases t.1 a, ?_⟩
    rw [hhist, tally, List.foldl_append]
    exact ht.step he

theorem Inv.held_eq (h : Inv N s vals c) : held N s.queue = vals.length - c := by
  have hreleased := h.released
  have hbound := h.bound
  have hpos : 0 < N := by omega
  have htail : vals.length % N = (c % N + (vals.length - c)) % N := by
    rw [Nat.mod_add_mod]
    congr 1
    omega
  rw [held, h.tail, h.head, htail]
  exact Cyclic.dist_add (Nat.mod_lt _ hpos) (by omega)

/-- The producer writes to no slot that the consumer reads. -/
theorem Inv.disjoint (h : Inv N s vals c) {ele : T} {slot : Nat}
    (hp : s.producer = .copy ele slot) : s.consumer ≠ .copy slot := by
  intro hc
  have hprod := h.producer
  have hcons := h.consumer
  rw [hp] at hprod
  rw [hc] at hcons
  obtain ⟨hslot, -⟩ : slot = s.queue.tail_ ∧ vals.length + 1 < c + N := hprod
  obtain ⟨hslot', hlt⟩ : slot = s.queue.head_ ∧ c < vals.length := hcons
  apply h.tail_ne (Nat.le_refl c) hlt
  rw [← h.head, ← hslot', hslot]

end Tallied

/-! ## Failing calls -/

section Failing

variable {N : Nat} {ptr : Nat → T} {pre mid actions : List (Action T)}
  {s : System T} {h : List (Event Client (Op T) (Result T))} {ele : T}

/-- The queue held `n` elements in some state that the run passed through
after `pre`. -/
def HeldSince (N : Nat) (ptr : Nat → T) (pre mid : List (Action T)) (n : Nat) : Prop :=
  ∃ part, part <+: mid ∧ ∃ s h, exec N ptr (pre ++ part) = some (s, h) ∧ held N s.queue = n

theorem HeldSince.mono {mid' : List (Action T)} {n : Nat} (h : HeldSince N ptr pre mid n)
    (hmid : mid <+: mid') : HeldSince N ptr pre mid' n := by
  obtain ⟨part, hpart, hheld⟩ := h
  exact ⟨part, hpart.trans hmid, hheld⟩

theorem exec_snoc {a : Action T} (hrun : exec N ptr (actions ++ [a]) = some (s, h)) :
    ∃ s₀ h₀ e, exec N ptr actions = some (s₀, h₀) ∧ step N s₀ a = some (s, e) := by
  rw [exec, Runs.exec_snoc] at hrun
  obtain ⟨⟨s₀, h₀⟩, hexec, hrec⟩ := Option.bind_eq_some_iff.mp hrun
  obtain ⟨e, he, -⟩ := Linearizability.record_eq_some hrec
  exact ⟨s₀, h₀, e, hexec, he⟩

theorem popStep_frame {s s' : System T} (hstep : popStep N s = some s') :
    s'.producer = s.producer ∧ s'.queue.tail_ = s.queue.tail_ := by
  cases popStep_move hstep <;> exact ⟨rfl, rfl⟩

theorem pushStep_frame {s s' : System T} (hstep : pushStep N s = some s') :
    s'.consumer = s.consumer ∧ s'.queue.head_ = s.queue.head_ := by
  cases pushStep_move hstep <;> exact ⟨rfl, rfl⟩

theorem full_of_pushStep_fails {s s' : System T} (hstep : pushStep N s = some s') {x : T}
    (hfail : s'.producer = .done x false) :
    ∃ t, s.producer = .loadHead x t ∧ (t + 1) % N = s.queue.head_ := by
  cases pushStep_move hstep with
  | full ele t hpc hfull =>
      cases hfail
      exact ⟨t, hpc, hfull⟩
  | loadTail ele hpc => cases hfail
  | room ele t hpc hroom => cases hfail
  | copy ele t hpc => cases hfail
  | store ele t hpc => cases hfail

/-- A push fails only after a load that saw the queue full. -/
theorem heldSince_of_push_fails (hN : 0 < N) (hmid : ∀ x, .push x ∉ mid)
    (hrun : exec N ptr (pre ++ .push ele :: mid) = some (s, h)) {x : T}
    (hfail : s.producer = .done x false) :
    HeldSince N ptr (pre ++ [.push ele]) mid (N - 1) := by
  induction mid using List.reverseRecOn generalizing s h with
  | nil =>
      obtain ⟨s₀, h₀, e, -, hstep⟩ := exec_snoc hrun
      obtain ⟨-, rfl, -⟩ := step_push hstep
      cases hfail
  | append_singleton mid a ih =>
      have hmid' : ∀ x, .push x ∉ mid := fun x hx => hmid x (List.mem_append_left _ hx)
      rw [← List.cons_append, ← List.append_assoc] at hrun
      obtain ⟨s₀, h₀, e, hexec, hstep⟩ := exec_snoc hrun
      have hearlier := fun hfail₀ => (ih hmid' hexec hfail₀).mono (List.prefix_append mid [a])
      cases a with
      | push y => exact (hmid y (by simp)).elim
      | pushReturn =>
          obtain ⟨-, -, -, rfl, -⟩ := step_pushReturn hstep
          cases hfail
      | pop =>
          obtain ⟨-, rfl, -⟩ := step_pop hstep
          exact hearlier hfail
      | popReturn =>
          obtain ⟨-, -, rfl, -⟩ := step_popReturn hstep
          exact hearlier hfail
      | popStep =>
          rw [(popStep_frame (step_popStep hstep).1).1] at hfail
          exact hearlier hfail
      | pushStep =>
          obtain ⟨t, hpc, hfull⟩ := full_of_pushStep_fails (step_pushStep hstep).1 hfail
          obtain ⟨vals, c, hinv⟩ := exec_tallied hN hexec
          have hprod := hinv.producer
          rw [hpc] at hprod
          rw [show t = s₀.queue.tail_ from hprod, hinv.full_iff] at hfull
          refine ⟨mid, List.prefix_append mid _, s₀, h₀, ?_, ?_⟩
          · rwa [List.append_assoc]
          · rw [hinv.toInv.held_eq]
            omega

/-- The pop has loaded a tail that equals the head. -/
def Failing (s : System T) : Prop :=
  s.consumer = .done none ∨ s.consumer = .loadHead s.queue.head_

theorem failing_of_popStep {s s' : System T} (hstep : popStep N s = some s')
    (hfail : Failing s') :
    Failing s ∨ s.consumer = .loadTail ∧ s.queue.tail_ = s.queue.head_ := by
  cases popStep_move hstep with
  | loadTail hpc =>
      rcases hfail with hfail | hfail
      · cases hfail
      · exact .inr ⟨hpc, PopState.loadHead.inj hfail⟩
  | empty hpc => exact .inl (.inr hpc)
  | elements t hpc hne => rcases hfail with hfail | hfail <;> cases hfail
  | copy i hpc => rcases hfail with hfail | hfail <;> cases hfail
  | store i ele hpc => rcases hfail with hfail | hfail <;> cases hfail

theorem heldSince_of_pop_fails (hN : 0 < N) (hmid : .pop ∉ mid)
    (hrun : exec N ptr (pre ++ .pop :: mid) = some (s, h)) (hfail : Failing s) :
    HeldSince N ptr (pre ++ [.pop]) mid 0 := by
  induction mid using List.reverseRecOn generalizing s h with
  | nil =>
      obtain ⟨s₀, h₀, e, -, hstep⟩ := exec_snoc hrun
      obtain ⟨-, rfl, -⟩ := step_pop hstep
      rcases hfail with hfail | hfail <;> cases hfail
  | append_singleton mid a ih =>
      have hmid' : .pop ∉ mid := fun hx => hmid (List.mem_append_left _ hx)
      rw [← List.cons_append, ← List.append_assoc] at hrun
      obtain ⟨s₀, h₀, e, hexec, hstep⟩ := exec_snoc hrun
      have hearlier := fun hfail₀ => (ih hmid' hexec hfail₀).mono (List.prefix_append mid [a])
      cases a with
      | pop => exact (hmid (by simp)).elim
      | popReturn =>
          obtain ⟨-, -, rfl, -⟩ := step_popReturn hstep
          rcases hfail with hfail | hfail <;> cases hfail
      | push y =>
          obtain ⟨-, rfl, -⟩ := step_push hstep
          exact hearlier hfail
      | pushReturn =>
          obtain ⟨-, -, -, rfl, -⟩ := step_pushReturn hstep
          exact hearlier hfail
      | pushStep =>
          obtain ⟨hcons, hhead⟩ := pushStep_frame (step_pushStep hstep).1
          rw [Failing, hcons, hhead] at hfail
          exact hearlier hfail
      | popStep =>
          rcases failing_of_popStep (step_popStep hstep).1 hfail with hfail₀ | ⟨-, hempty⟩
          · exact hearlier hfail₀
          · obtain ⟨vals, c, hinv⟩ := exec_tallied hN hexec
            rw [hinv.tail, hinv.loaded_eq_head_iff hinv.released (Nat.le_refl _)] at hempty
            refine ⟨mid, List.prefix_append mid _, s₀, h₀, ?_, ?_⟩
            · rwa [List.append_assoc]
            · rw [hinv.toInv.held_eq]
              omega

end Failing

/-! ## The steps of one call

A call goes on whatever the other client does, and is over after four steps. -/

section OwnSteps

variable {N : Nat} {ptr : Nat → T} {ele : T} {pre mid : List (Action T)} {s s' : System T}
  {h : List (Event Client (Op T) (Result T))}

/-- The steps that are at most left of a call of `push`. -/
def pushToGo : PushState T → Nat
  | .loadTail _ => 4
  | .loadHead _ _ => 3
  | .copy _ _ => 2
  | .store _ _ => 1
  | .idle => 0
  | .done _ _ => 0

def popToGo : PopState T → Nat
  | .loadTail => 4
  | .loadHead _ => 3
  | .copy _ => 2
  | .store _ _ => 1
  | .idle => 0
  | .done _ => 0

def isPushStep : Action T → Bool
  | .pushStep => true
  | _ => false

def isPopStep : Action T → Bool
  | .popStep => true
  | _ => false

theorem exists_pushStep_iff : (∃ s', pushStep N s = some s') ↔ 0 < pushToGo s.producer := by
  unfold pushStep
  cases s.producer <;> simp [pushToGo]
  split_ifs <;> simp

theorem exists_popStep_iff : (∃ s', popStep N s = some s') ↔ 0 < popToGo s.consumer := by
  unfold popStep
  cases s.consumer <;> simp [popToGo]
  split_ifs <;> simp

theorem pushToGo_lt (hstep : pushStep N s = some s') :
    pushToGo s'.producer < pushToGo s.producer := by
  cases pushStep_move hstep with
  | loadTail ele hpc => simp [hpc, pushToGo]
  | full ele t hpc hfull => simp [hpc, pushToGo]
  | room ele t hpc hroom => simp [hpc, pushToGo]
  | copy ele t hpc => simp [hpc, pushToGo]
  | store ele t hpc => simp [hpc, pushToGo]

theorem popToGo_lt (hstep : popStep N s = some s') :
    popToGo s'.consumer < popToGo s.consumer := by
  cases popStep_move hstep with
  | loadTail hpc => simp [hpc, popToGo]
  | empty hpc => simp [hpc, popToGo]
  | elements t hpc hne => simp [hpc, popToGo]
  | copy i hpc => simp [hpc, popToGo]
  | store i ele hpc => simp [hpc, popToGo]

theorem countP_pushStep (hmid : ∀ x, .push x ∉ mid)
    (hrun : exec N ptr (pre ++ .push ele :: mid) = some (s, h)) :
    mid.countP isPushStep + pushToGo s.producer ≤ 4 := by
  induction mid using List.reverseRecOn generalizing s h with
  | nil =>
      obtain ⟨s₀, h₀, e, -, hstep⟩ := exec_snoc hrun
      obtain ⟨-, rfl, -⟩ := step_push hstep
      exact Nat.le_refl 4
  | append_singleton mid a ih =>
      have hmid' : ∀ x, .push x ∉ mid := fun x hx => hmid x (List.mem_append_left _ hx)
      rw [← List.cons_append, ← List.append_assoc] at hrun
      obtain ⟨s₀, h₀, e, hexec, hstep⟩ := exec_snoc hrun
      have hbefore := ih hmid' hexec
      rw [List.countP_append, List.countP_singleton]
      cases a with
      | push y => exact (hmid y (by simp)).elim
      | pushReturn =>
          obtain ⟨-, -, -, rfl, -⟩ := step_pushReturn hstep
          exact Nat.le_of_add_right_le hbefore
      | pop =>
          obtain ⟨-, rfl, -⟩ := step_pop hstep
          exact hbefore
      | popReturn =>
          obtain ⟨-, -, rfl, -⟩ := step_popReturn hstep
          exact hbefore
      | popStep =>
          rw [(popStep_frame (step_popStep hstep).1).1]
          exact hbefore
      | pushStep =>
          have hless := pushToGo_lt (step_pushStep hstep).1
          simp only [isPushStep, if_true]
          omega

theorem countP_popStep (hmid : .pop ∉ mid)
    (hrun : exec N ptr (pre ++ .pop :: mid) = some (s, h)) :
    mid.countP isPopStep + popToGo s.consumer ≤ 4 := by
  induction mid using List.reverseRecOn generalizing s h with
  | nil =>
      obtain ⟨s₀, h₀, e, -, hstep⟩ := exec_snoc hrun
      obtain ⟨-, rfl, -⟩ := step_pop hstep
      exact Nat.le_refl 4
  | append_singleton mid a ih =>
      have hmid' : .pop ∉ mid := fun hx => hmid (List.mem_append_left _ hx)
      rw [← List.cons_append, ← List.append_assoc] at hrun
      obtain ⟨s₀, h₀, e, hexec, hstep⟩ := exec_snoc hrun
      have hbefore := ih hmid' hexec
      rw [List.countP_append, List.countP_singleton]
      cases a with
      | pop => exact (hmid (by simp)).elim
      | popReturn =>
          obtain ⟨-, -, rfl, -⟩ := step_popReturn hstep
          exact Nat.le_of_add_right_le hbefore
      | push y =>
          obtain ⟨-, rfl, -⟩ := step_push hstep
          exact hbefore
      | pushReturn =>
          obtain ⟨-, -, -, rfl, -⟩ := step_pushReturn hstep
          exact hbefore
      | pushStep =>
          rw [(pushStep_frame (step_pushStep hstep).1).1]
          exact hbefore
      | popStep =>
          have hless := popToGo_lt (step_popStep hstep).1
          simp only [isPopStep, if_true]
          omega

/-- A call of `push` takes at most four steps of its own, and whatever the consumer
does it can take the next one. -/
theorem push_returns (hmid : ∀ x, .push x ∉ mid)
    (hrun : exec N ptr (pre ++ .push ele :: mid) = some (s, h)) :
    mid.countP isPushStep + pushToGo s.producer ≤ 4 ∧
      (0 < pushToGo s.producer → ∃ s', pushStep N s = some s') :=
  ⟨countP_pushStep hmid hrun, exists_pushStep_iff.mpr⟩

theorem pop_returns (hmid : .pop ∉ mid)
    (hrun : exec N ptr (pre ++ .pop :: mid) = some (s, h)) :
    mid.countP isPopStep + popToGo s.consumer ≤ 4 ∧
      (0 < popToGo s.consumer → ∃ s', popStep N s = some s') :=
  ⟨countP_popStep hmid hrun, exists_popStep_iff.mpr⟩

end OwnSteps

/-- **Under every interleaving the queue is a FIFO of capacity `N - 1`**: its
histories are linearizable; the elements popped are a prefix of those pushed, a
push counting from the store of its index on; a push fails only when the queue
held `N - 1` elements during the call and a pop only when it held none; and the
producer never writes to the slot that the consumer reads. -/
theorem exec_fifo (k : Nat) (ptr : Nat → T) (actions : List (Action T)) (s : System T)
    (h : List (Event Client (Op T) (Result T)))
    (hrun : exec (2 ^ k) ptr actions = some (s, h)) :
    Linearizable (boundedFifo (2 ^ k - 1)) [] h ∧
      (tally h).popped <+: (tally h).pushed ++ succeeding s.producer ∧
      (∀ pre ele mid x, actions = pre ++ .push ele :: mid → (∀ y, .push y ∉ mid) →
        s.producer = .done x false → HeldSince (2 ^ k) ptr (pre ++ [.push ele]) mid (2 ^ k - 1)) ∧
      (∀ pre mid, actions = pre ++ .pop :: mid → .pop ∉ mid →
        s.consumer = .done none → HeldSince (2 ^ k) ptr (pre ++ [.pop]) mid 0) ∧
      ∀ ele slot, s.producer = .copy ele slot → s.consumer ≠ .copy slot := by
  have hN : 0 < 2 ^ k := Nat.two_pow_pos k
  obtain ⟨vals, c, htallied⟩ := exec_tallied hN hrun
  refine ⟨exec_linearizable hN hrun, ?_, ?_, ?_, ?_⟩
  · rw [htallied.pushed]
    exact (List.prefix_append _ _).trans (htallied.popped ▸ List.take_prefix c vals)
  · rintro pre ele mid x rfl hmid hfail
    exact heldSince_of_push_fails hN hmid hrun hfail
  · rintro pre mid rfl hmid hfail
    exact heldSince_of_pop_fails hN hmid hrun (.inl hfail)
  · intro ele slot hp
    exact htallied.toInv.disjoint hp

/-- Two slots: a push that succeeds, a push that meets the full queue, and a
pop that runs in between. -/
def crossing : List (Action Nat) :=
  [.push 7, .pushStep, .pushStep, .pop, .popStep, .pushStep, .pushStep, .pushReturn, .popStep,
    .popReturn, .push 8, .pushStep, .pushStep, .pop, .popStep, .popStep, .popStep, .popStep]

theorem exec_fifo_crossing : ∃ s h, exec 2 (fun _ => 0) crossing = some (s, h) ∧
    s.producer = .done 8 false ∧ s.consumer = .done (some 7) ∧ s.queue.head_ = 1 ∧
    Linearizable (boundedFifo 1) [] h ∧
      (tally h).popped <+: (tally h).pushed ++ succeeding s.producer := by
  obtain ⟨s, h, hrun, hpush, hpop, hhead⟩ : ∃ s h, exec 2 (fun _ => 0) crossing = some (s, h) ∧
      s.producer = .done 8 false ∧ s.consumer = .done (some 7) ∧ s.queue.head_ = 1 :=
    ⟨_, _, rfl, rfl, rfl, rfl⟩
  have hfifo := exec_fifo 1 (fun _ => 0) crossing s h hrun
  exact ⟨s, h, hrun, hpush, hpop, hhead, hfifo.1, hfifo.2.1⟩

end UltraHft.Core.SpscQueue
