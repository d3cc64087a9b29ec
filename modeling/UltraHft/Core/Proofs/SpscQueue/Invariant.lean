import Mathlib.Data.List.Basic
import Mathlib.Data.Nat.ModEq
import UltraHft.Core.SpscQueue

/-!
# The invariant of the queue

`vals` lists the elements whose index the producer has stored so far, and `c`
counts those that the consumer has released.  The indices are their counts
modulo `N`, at most `N - 1` elements are in between, and each of them is in its
slot; every copy of an index that a client holds is one that the index had
since the call began.
-/

namespace UltraHft.Core.SpscQueue

open UltraHft.Lib

variable {T : Type*}

theorem mod_inj {N c i j : Nat} (hi : c ≤ i) (hiN : i < c + N) (hj : c ≤ j)
    (hjN : j < c + N) : i % N = j % N ↔ i = j := by
  constructor
  · intro h
    rcases Nat.le_total i j with hij | hij
    · have hdvd : N ∣ j - i := (Nat.modEq_iff_dvd' hij).mp h
      have hzero := Nat.eq_zero_of_dvd_of_lt hdvd (by omega)
      omega
    · have hdvd : N ∣ i - j := (Nat.modEq_iff_dvd' hij).mp h.symm
      have hzero := Nat.eq_zero_of_dvd_of_lt hdvd (by omega)
      omega
  · rintro rfl
    rfl

theorem succ_mod (N a : Nat) : (a % N + 1) % N = (a + 1) % N := by
  rw [Nat.add_mod, Nat.mod_mod, ← Nat.add_mod]

/-! ## What a step can be -/

section Step

variable {N : Nat} {s s' : System T} {ele : T}
  {e : Option (Linearizability.Event Client (Op T) (Result T))}

theorem step_push (h : step N s (.push ele) = some (s', e)) :
    s.producer = .idle ∧ s' = { s with producer := .loadTail ele } ∧
      e = some (.call .producer (.push ele)) := by
  unfold step at h
  cases hpc : s.producer <;> simp only [hpc] at h <;> cases h
  exact ⟨rfl, rfl, rfl⟩

theorem step_pushReturn (h : step N s .pushReturn = some (s', e)) :
    ∃ ele ok, s.producer = .done ele ok ∧ s' = { s with producer := .idle } ∧
      e = some (.ret .producer (.pushed ok)) := by
  unfold step at h
  cases hpc : s.producer <;> simp only [hpc] at h <;> cases h
  exact ⟨_, _, rfl, rfl, rfl⟩

theorem step_pop (h : step N s .pop = some (s', e)) :
    s.consumer = .idle ∧ s' = { s with consumer := .loadTail } ∧
      e = some (.call .consumer .pop) := by
  unfold step at h
  cases hpc : s.consumer <;> simp only [hpc] at h <;> cases h
  exact ⟨rfl, rfl, rfl⟩

theorem step_popReturn (h : step N s .popReturn = some (s', e)) :
    ∃ r, s.consumer = .done r ∧ s' = { s with consumer := .idle } ∧
      e = some (.ret .consumer (.popped r)) := by
  unfold step at h
  cases hpc : s.consumer <;> simp only [hpc] at h <;> cases h
  exact ⟨_, rfl, rfl, rfl⟩

theorem step_pushStep (h : step N s .pushStep = some (s', e)) :
    pushStep N s = some s' ∧ e = none := by
  obtain ⟨t, ht, heq⟩ := Option.map_eq_some_iff.mp h
  obtain ⟨rfl, rfl⟩ := Prod.mk.inj heq
  exact ⟨ht, rfl⟩

theorem step_popStep (h : step N s .popStep = some (s', e)) :
    popStep N s = some s' ∧ e = none := by
  obtain ⟨t, ht, heq⟩ := Option.map_eq_some_iff.mp h
  obtain ⟨rfl, rfl⟩ := Prod.mk.inj heq
  exact ⟨ht, rfl⟩

inductive PushMove (N : Nat) (s : System T) : System T → Prop
  | loadTail (ele : T) (hpc : s.producer = .loadTail ele) :
      PushMove N s { s with producer := .loadHead ele s.queue.tail_ }
  | full (ele : T) (t : Nat) (hpc : s.producer = .loadHead ele t)
      (hfull : (t + 1) % N = s.queue.head_) :
      PushMove N s { s with producer := .done ele false }
  | room (ele : T) (t : Nat) (hpc : s.producer = .loadHead ele t)
      (hroom : (t + 1) % N ≠ s.queue.head_) :
      PushMove N s { s with producer := .copy ele t }
  | copy (ele : T) (t : Nat) (hpc : s.producer = .copy ele t) :
      PushMove N s { s with
        queue := { s.queue with ptr := Function.update s.queue.ptr t ele }
        producer := .store ele t }
  | store (ele : T) (t : Nat) (hpc : s.producer = .store ele t) :
      PushMove N s { s with
        queue := { s.queue with tail_ := (t + 1) % N }
        producer := .done ele true }

theorem pushStep_move (h : pushStep N s = some s') : PushMove N s s' := by
  unfold pushStep at h
  cases hpc : s.producer with
  | idle => simp [hpc] at h
  | done ele ok => simp [hpc] at h
  | loadTail ele =>
      simp only [hpc, Option.some.injEq] at h
      subst h
      exact .loadTail ele hpc
  | loadHead ele t =>
      simp only [hpc] at h
      split_ifs at h with hfull
      · obtain rfl := Option.some.inj h
        exact .full ele t hpc hfull
      · obtain rfl := Option.some.inj h
        exact .room ele t hpc hfull
  | copy ele t =>
      simp only [hpc, Option.some.injEq] at h
      subst h
      exact .copy ele t hpc
  | store ele t =>
      simp only [hpc, Option.some.injEq] at h
      subst h
      exact .store ele t hpc

inductive PopMove (N : Nat) (s : System T) : System T → Prop
  | loadTail (hpc : s.consumer = .loadTail) :
      PopMove N s { s with consumer := .loadHead s.queue.tail_ }
  | empty (hpc : s.consumer = .loadHead s.queue.head_) :
      PopMove N s { s with consumer := .done none }
  | elements (t : Nat) (hpc : s.consumer = .loadHead t) (hne : t ≠ s.queue.head_) :
      PopMove N s { s with consumer := .copy s.queue.head_ }
  | copy (i : Nat) (hpc : s.consumer = .copy i) :
      PopMove N s { s with consumer := .store i (s.queue.ptr i) }
  | store (i : Nat) (ele : T) (hpc : s.consumer = .store i ele) :
      PopMove N s { s with
        queue := { s.queue with head_ := (i + 1) % N }
        consumer := .done (some ele) }

theorem popStep_move (h : popStep N s = some s') : PopMove N s s' := by
  unfold popStep at h
  cases hpc : s.consumer with
  | idle => simp [hpc] at h
  | done r => simp [hpc] at h
  | loadTail =>
      simp only [hpc, Option.some.injEq] at h
      subst h
      exact .loadTail hpc
  | loadHead t =>
      simp only [hpc] at h
      split_ifs at h with hempty
      · obtain rfl := Option.some.inj h
        exact .empty (hempty ▸ hpc)
      · obtain rfl := Option.some.inj h
        exact .elements t hpc hempty
  | copy i =>
      simp only [hpc, Option.some.injEq] at h
      subst h
      exact .copy i hpc
  | store i ele =>
      simp only [hpc, Option.some.injEq] at h
      subst h
      exact .store i ele hpc

end Step

/-! ## The invariant -/

/-- What the local variables of a running `push` say. -/
def PushInv (N : Nat) (q : SpscQueue T) (vals : List T) (c : Nat) : PushState T → Prop
  | .loadHead _ t => t = q.tail_
  | .copy _ t => t = q.tail_ ∧ vals.length + 1 < c + N
  | .store ele t => t = q.tail_ ∧ vals.length + 1 < c + N ∧ q.ptr t = ele
  | _ => True

/-- What the local variables of a running `pop` say.  The tail it has loaded
may have moved on since. -/
def PopInv (N : Nat) (q : SpscQueue T) (vals : List T) (c : Nat) : PopState T → Prop
  | .loadHead t => ∃ p, c ≤ p ∧ p ≤ vals.length ∧ t = p % N
  | .copy h => h = q.head_ ∧ c < vals.length
  | .store h ele => h = q.head_ ∧ vals[c]? = some ele
  | _ => True

theorem PopInv.append {N : Nat} {q q' : SpscQueue T} {vals : List T} {c : Nat} {p : PopState T}
    (h : PopInv N q vals c p) (hhead : q'.head_ = q.head_) (more : List T) :
    PopInv N q' (vals ++ more) c p := by
  cases p with
  | loadHead t =>
      obtain ⟨i, hi, hi', ht⟩ := h
      exact ⟨i, hi, hi'.trans (by simp), ht⟩
  | copy t => exact ⟨h.1.trans hhead.symm, h.2.trans_le (by simp)⟩
  | store t x =>
      refine ⟨h.1.trans hhead.symm, ?_⟩
      have hx : vals[c]? = some x := h.2
      have hlt : c < vals.length := (List.getElem?_eq_some_iff.mp hx).1
      rw [List.getElem?_append_left hlt, hx]
  | idle => trivial
  | loadTail => trivial
  | done r => trivial

theorem PushInv.release {N : Nat} {q q' : SpscQueue T} {vals : List T} {c : Nat}
    {p : PushState T} (h : PushInv N q vals c p) (htail : q'.tail_ = q.tail_)
    (hptr : q'.ptr = q.ptr) : PushInv N q' vals (c + 1) p := by
  cases p with
  | loadHead x t => exact Eq.trans h htail.symm
  | copy x t =>
      obtain ⟨ht, hroom⟩ := h
      exact ⟨ht.trans htail.symm, by omega⟩
  | store x t =>
      obtain ⟨ht, hroom, hx⟩ := h
      refine ⟨ht.trans htail.symm, by omega, ?_⟩
      rw [hptr]
      exact hx
  | idle => trivial
  | loadTail x => trivial
  | done x ok => trivial

structure Inv (N : Nat) (s : System T) (vals : List T) (c : Nat) : Prop where
  tail : s.queue.tail_ = vals.length % N
  head : s.queue.head_ = c % N
  released : c ≤ vals.length
  bound : vals.length < c + N
  stored : ∀ i, c ≤ i → i < vals.length → vals[i]? = some (s.queue.ptr (i % N))
  producer : PushInv N s.queue vals c s.producer
  consumer : PopInv N s.queue vals c s.consumer

def stores (s : System T) : Action T → List T
  | .pushStep => match s.producer with
    | .store ele _ => [ele]
    | _ => []
  | _ => []

def releases (s : System T) : Action T → Nat
  | .popStep => match s.consumer with
    | .store _ _ => 1
    | _ => 0
  | _ => 0

namespace Inv

variable {N : Nat} {s s' : System T} {vals : List T} {c : Nat}

theorem new (hN : 0 < N) (ptr : Nat → T) : Inv N (new ptr) [] 0 where
  tail := by simp [SpscQueue.new]
  head := by simp [SpscQueue.new]
  released := Nat.le_refl 0
  bound := by simpa using hN
  stored := by simp
  producer := trivial
  consumer := trivial

/-- The queue looks full to `push` exactly when it holds `N - 1` elements. -/
theorem full_iff (h : Inv N s vals c) :
    (s.queue.tail_ + 1) % N = s.queue.head_ ↔ vals.length + 1 = c + N := by
  have hbound := h.bound
  have hreleased := h.released
  rw [h.tail, h.head, succ_mod]
  by_cases hlt : vals.length + 1 < c + N
  · rw [mod_inj (c := c) (by omega) hlt (by omega) (by omega)]
    omega
  · rw [show vals.length + 1 = c + N by omega, Nat.add_mod_right]
    simp

/-- A tail that `pop` has loaded equals the head exactly when everything stored
up to that load has been released. -/
theorem loaded_eq_head_iff (h : Inv N s vals c) {p : Nat} (hp : c ≤ p)
    (hp' : p ≤ vals.length) : p % N = s.queue.head_ ↔ p = c := by
  have hbound := h.bound
  rw [h.head]
  exact mod_inj hp (by omega) (Nat.le_refl c) (by omega)

/-- The producer writes outside the window that the consumer may read. -/
theorem tail_ne (h : Inv N s vals c) {i : Nat} (hi : c ≤ i) (hi' : i < vals.length) :
    i % N ≠ s.queue.tail_ := by
  have hbound := h.bound
  rw [h.tail, Ne, mod_inj hi (by omega) h.released hbound]
  omega

theorem pushStep_inv (h : Inv N s vals c) (hstep : pushStep N s = some s') :
    Inv N s' (vals ++ stores s .pushStep) c := by
  have hprod := h.producer
  cases pushStep_move hstep with
  | loadTail ele hpc =>
      simp only [stores, hpc, List.append_nil]
      exact ⟨h.tail, h.head, h.released, h.bound, h.stored, rfl, h.consumer⟩
  | full ele t hpc hfull =>
      simp only [stores, hpc, List.append_nil]
      exact ⟨h.tail, h.head, h.released, h.bound, h.stored, trivial, h.consumer⟩
  | room ele t hpc hroom =>
      rw [hpc] at hprod
      have ht : t = s.queue.tail_ := hprod
      simp only [stores, hpc, List.append_nil]
      refine ⟨h.tail, h.head, h.released, h.bound, h.stored, ⟨ht, ?_⟩, h.consumer⟩
      rw [ht, Ne, h.full_iff] at hroom
      have hbound := h.bound
      omega
  | copy ele t hpc =>
      rw [hpc] at hprod
      obtain ⟨ht, hroom⟩ : t = s.queue.tail_ ∧ vals.length + 1 < c + N := hprod
      simp only [stores, hpc, List.append_nil]
      refine ⟨h.tail, h.head, h.released, h.bound, ?_, ⟨ht, hroom, by simp⟩, ?_⟩
      · intro i hi hi'
        have hne : i % N ≠ t := by
          rw [ht]
          exact h.tail_ne hi hi'
        simpa [Function.update_of_ne hne] using h.stored i hi hi'
      · have hpop : PopInv N { s.queue with ptr := Function.update s.queue.ptr t ele }
            (vals ++ []) c s.consumer := h.consumer.append rfl []
        rwa [List.append_nil] at hpop
  | store ele t hpc =>
      rw [hpc] at hprod
      obtain ⟨ht, hroom, hele⟩ : t = s.queue.tail_ ∧ vals.length + 1 < c + N ∧
        s.queue.ptr t = ele := hprod
      simp only [stores, hpc]
      have hreleased := h.released
      refine ⟨?_, h.head, ?_, ?_, ?_, trivial, ?_⟩
      · simp only [List.length_append, List.length_singleton]
        rw [ht, h.tail, succ_mod]
      · simp only [List.length_append, List.length_singleton]
        omega
      · simpa using hroom
      · intro i hi hi'
        simp only [List.length_append, List.length_singleton] at hi'
        by_cases hlast : i = vals.length
        · subst hlast
          rw [List.getElem?_append_right (Nat.le_refl _)]
          simp only [Nat.sub_self, List.getElem?_cons_zero, Option.some.injEq]
          rw [← h.tail, ← ht, hele]
        · rw [List.getElem?_append_left (by omega)]
          exact h.stored i hi (by omega)
      · exact h.consumer.append rfl [ele]

theorem popStep_inv (h : Inv N s vals c) (hstep : popStep N s = some s') :
    Inv N s' vals (c + releases s .popStep) := by
  have hcons := h.consumer
  have hbound := h.bound
  cases popStep_move hstep with
  | loadTail hpc =>
      simp only [releases, hpc, Nat.add_zero]
      exact ⟨h.tail, h.head, h.released, h.bound, h.stored, h.producer,
        vals.length, h.released, Nat.le_refl _, h.tail⟩
  | empty hpc =>
      simp only [releases, hpc, Nat.add_zero]
      exact ⟨h.tail, h.head, h.released, h.bound, h.stored, h.producer, trivial⟩
  | elements t hpc hne =>
      rw [hpc] at hcons
      obtain ⟨p, hp, hp', rfl⟩ : ∃ p, c ≤ p ∧ p ≤ vals.length ∧ t = p % N := hcons
      simp only [releases, hpc, Nat.add_zero]
      refine ⟨h.tail, h.head, h.released, h.bound, h.stored, h.producer, rfl, ?_⟩
      rw [Ne, h.loaded_eq_head_iff hp hp'] at hne
      omega
  | copy i hpc =>
      rw [hpc] at hcons
      obtain ⟨hi, hlt⟩ : i = s.queue.head_ ∧ c < vals.length := hcons
      simp only [releases, hpc, Nat.add_zero]
      refine ⟨h.tail, h.head, h.released, h.bound, h.stored, h.producer, hi, ?_⟩
      rw [h.stored c (Nat.le_refl c) hlt, hi, h.head]
  | store i ele hpc =>
      rw [hpc] at hcons
      obtain ⟨hi, hele⟩ : i = s.queue.head_ ∧ vals[c]? = some ele := hcons
      have hlt : c < vals.length := (List.getElem?_eq_some_iff.mp hele).1
      simp only [releases, hpc]
      refine ⟨h.tail, ?_, by omega, by omega, ?_, ?_, trivial⟩
      · rw [hi, h.head]
        exact succ_mod N c
      · intro j hj hj'
        exact h.stored j (by omega) hj'
      · exact h.producer.release rfl rfl

theorem step_inv (h : Inv N s vals c) {a : Action T}
    {e : Option (Linearizability.Event Client (Op T) (Result T))}
    (hstep : step N s a = some (s', e)) :
    Inv N s' (vals ++ stores s a) (c + releases s a) := by
  cases a with
  | pushStep => exact h.pushStep_inv (step_pushStep hstep).1
  | popStep => simpa [stores] using h.popStep_inv (step_popStep hstep).1
  | push ele =>
      obtain ⟨-, rfl, -⟩ := step_push hstep
      simp only [stores, releases, List.append_nil, Nat.add_zero]
      exact ⟨h.tail, h.head, h.released, h.bound, h.stored, trivial, h.consumer⟩
  | pushReturn =>
      obtain ⟨-, -, -, rfl, -⟩ := step_pushReturn hstep
      simp only [stores, releases, List.append_nil, Nat.add_zero]
      exact ⟨h.tail, h.head, h.released, h.bound, h.stored, trivial, h.consumer⟩
  | pop =>
      obtain ⟨-, rfl, -⟩ := step_pop hstep
      simp only [stores, releases, List.append_nil, Nat.add_zero]
      exact ⟨h.tail, h.head, h.released, h.bound, h.stored, h.producer, trivial⟩
  | popReturn =>
      obtain ⟨-, -, rfl, -⟩ := step_popReturn hstep
      simp only [stores, releases, List.append_nil, Nat.add_zero]
      exact ⟨h.tail, h.head, h.released, h.bound, h.stored, h.producer, trivial⟩

end Inv

end UltraHft.Core.SpscQueue
