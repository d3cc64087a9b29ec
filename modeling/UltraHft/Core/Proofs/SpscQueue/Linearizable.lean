import UltraHft.Core.Proofs.SpscQueue.Invariant
import UltraHft.Lib.Cyclic

/-!
# The queue is a bounded FIFO

Every interleaving of the steps of one producer and one consumer is
linearizable to a FIFO of capacity `N - 1`.  A push takes effect when it stores
the tail, or when it loads a head that makes the queue full; a pop takes effect
when it stores the head, or when it loads a tail that makes the queue empty.
-/

namespace UltraHft.Core.SpscQueue

open UltraHft.Lib
open UltraHft.Lib.Linearizability (Atomic Event Linearizable Status Step Trace record)

variable {T : Type*}

def boundedFifo (capacity : Nat) : List T → Op T → List T × Result T
  | q, .push ele => if q.length < capacity then (q ++ [ele], .pushed true) else (q, .pushed false)
  | [], .pop => ([], .popped none)
  | ele :: q, .pop => (q, .popped (some ele))

/-- The history of a run from a new queue, with the state it leads to. -/
def exec (N : Nat) (ptr : Nat → T) (actions : List (Action T)) :
    Option (System T × List (Event Client (Op T) (Result T))) :=
  Runs.exec (record (step N)) (new ptr, []) actions

/-! ## Simulation -/

def pushStatus : PushState T → Status (Op T) (Result T)
  | .idle => .idle
  | .loadTail ele => .pending (.push ele)
  | .loadHead ele _ => .pending (.push ele)
  | .copy ele _ => .pending (.push ele)
  | .store ele _ => .pending (.push ele)
  | .done _ ok => .done (.pushed ok)

/-- A pop that has loaded a tail equal to the head is already bound to fail. -/
def popStatus (q : SpscQueue T) : PopState T → Status (Op T) (Result T)
  | .idle => .idle
  | .loadTail => .pending .pop
  | .loadHead t => if t = q.head_ then .done (.popped none) else .pending .pop
  | .copy _ => .pending .pop
  | .store _ _ => .pending .pop
  | .done r => .done (.popped r)

structure Simulates (N : Nat) (s : System T) (vals : List T) (c : Nat)
    (a : Atomic (List T) Client (Op T) (Result T)) : Prop extends Inv N s vals c where
  state : a.state = vals.drop c
  push : a.status .producer = pushStatus s.producer
  pop : a.status .consumer = popStatus s.queue s.consumer

section Simulation

variable {N : Nat} {s s' : System T} {vals : List T} {c : Nat}
  {a : Atomic (List T) Client (Op T) (Result T)}

/-- The states of the atomic object that a step of the queue may lead to. -/
def Matches (N : Nat) (s' : System T) (a : Atomic (List T) Client (Op T) (Result T))
    (e : Option (Event Client (Op T) (Result T))) : Prop :=
  ∃ a' vals' c', Trace (boundedFifo (N - 1)) a e.toList a' ∧ Simulates N s' vals' c' a'

theorem Simulates.stay (h : Simulates N s vals c a) {vals' : List T} {c' : Nat}
    (hinv : Inv N s' vals' c') (hstate : vals'.drop c' = vals.drop c)
    (hpush : pushStatus s'.producer = pushStatus s.producer)
    (hpop : popStatus s'.queue s'.consumer = popStatus s.queue s.consumer) :
    Matches N s' a none :=
  ⟨a, vals', c', Trace.refl a, hinv, by rw [h.state, hstate], by rw [h.push, hpush],
    by rw [h.pop, hpop]⟩

theorem Simulates.pushMoves (h : Simulates N s vals c a) {vals' : List T} {c' : Nat}
    {e : Option (Event Client (Op T) (Result T))} (st : Status (Op T) (Result T))
    (hinv : Inv N s' vals' c')
    (hstep : Step (boundedFifo (N - 1)) a e
      { state := vals'.drop c', status := Function.update a.status .producer st })
    (hpush : pushStatus s'.producer = st)
    (hpop : popStatus s'.queue s'.consumer = popStatus s.queue s.consumer) :
    Matches N s' a e := by
  refine ⟨_, vals', c', Trace.single hstep, hinv, rfl, ?_, ?_⟩
  · simp [hpush]
  · have hne : Client.consumer ≠ Client.producer := by decide
    rw [hpop, ← h.pop]
    exact Function.update_of_ne hne st a.status

theorem Simulates.popMoves (h : Simulates N s vals c a) {vals' : List T} {c' : Nat}
    {e : Option (Event Client (Op T) (Result T))} (st : Status (Op T) (Result T))
    (hinv : Inv N s' vals' c')
    (hstep : Step (boundedFifo (N - 1)) a e
      { state := vals'.drop c', status := Function.update a.status .consumer st })
    (hpush : pushStatus s'.producer = pushStatus s.producer)
    (hpop : popStatus s'.queue s'.consumer = st) :
    Matches N s' a e := by
  refine ⟨_, vals', c', Trace.single hstep, hinv, rfl, ?_, ?_⟩
  · have hne : Client.producer ≠ Client.consumer := by decide
    rw [hpush, ← h.push]
    exact Function.update_of_ne hne st a.status
  · simp [hpop]

theorem Simulates.pushStep (h : Simulates N s vals c a)
    (hstep : SpscQueue.pushStep N s = some s') : Matches N s' a none := by
  have hinv := h.toInv.pushStep_inv hstep
  have hprod := h.producer
  have hbound := h.bound
  have hreleased := h.released
  have hpush := h.push
  cases pushStep_move hstep with
  | loadTail ele hpc =>
      exact h.stay hinv (by simp [stores, hpc]) (by simp [hpc, pushStatus]) rfl
  | full ele t hpc hfull =>
      rw [hpc] at hprod hpush
      have ht : t = s.queue.tail_ := hprod
      simp only [stores, hpc, List.append_nil] at hinv
      rw [ht, h.full_iff] at hfull
      have happly : boundedFifo (N - 1) a.state (.push ele) =
          (vals.drop c, .pushed false) := by
        have hlen : ¬ (vals.drop c).length < N - 1 := by
          rw [List.length_drop]
          omega
        rw [h.state, boundedFifo, if_neg hlen]
      apply h.pushMoves (.done (.pushed false)) hinv ?_ rfl rfl
      have hpoint : Step (boundedFifo (N - 1)) a none _ := Step.point hpush
      rwa [happly] at hpoint
  | room ele t hpc hroom =>
      exact h.stay hinv (by simp [stores, hpc]) (by simp [hpc, pushStatus]) rfl
  | copy ele t hpc =>
      exact h.stay hinv (by simp [stores, hpc]) (by simp [hpc, pushStatus]) rfl
  | store ele t hpc =>
      rw [hpc] at hprod hpush
      obtain ⟨-, hroom, -⟩ : t = s.queue.tail_ ∧ vals.length + 1 < c + N ∧
        s.queue.ptr t = ele := hprod
      simp only [stores, hpc] at hinv
      have happly : boundedFifo (N - 1) a.state (.push ele) =
          ((vals ++ [ele]).drop c, .pushed true) := by
        have hlen : (vals.drop c).length < N - 1 := by
          rw [List.length_drop]
          omega
        rw [h.state, boundedFifo, if_pos hlen, List.drop_append_of_le_length h.released]
      apply h.pushMoves (.done (.pushed true)) hinv ?_ rfl rfl
      have hpoint : Step (boundedFifo (N - 1)) a none _ := Step.point hpush
      rwa [happly] at hpoint

theorem Simulates.popStep (h : Simulates N s vals c a)
    (hstep : SpscQueue.popStep N s = some s') : Matches N s' a none := by
  have hinv := h.toInv.popStep_inv hstep
  have hcons := h.consumer
  have hpop := h.pop
  cases popStep_move hstep with
  | loadTail hpc =>
      rw [hpc] at hpop
      simp only [releases, hpc, Nat.add_zero] at hinv
      by_cases hempty : s.queue.tail_ = s.queue.head_
      · -- the queue is empty now, whatever the producer does before the test
        have hlen : vals.length = c := by
          rw [h.tail] at hempty
          exact (h.loaded_eq_head_iff h.released (Nat.le_refl _)).mp hempty
        have hnil : vals.drop c = [] := by
          rw [List.drop_eq_nil_iff]
          omega
        have happly : boundedFifo (N - 1) a.state .pop = (vals.drop c, .popped none) := by
          rw [h.state, hnil]
          rfl
        apply h.popMoves (.done (.popped none)) hinv ?_ rfl (if_pos hempty)
        have hpoint : Step (boundedFifo (N - 1)) a none _ := Step.point hpop
        rwa [happly] at hpoint
      · exact h.stay hinv rfl rfl (by rw [hpc]; exact if_neg hempty)
  | empty hpc =>
      simp only [releases, hpc, Nat.add_zero] at hinv
      exact h.stay hinv rfl rfl (by rw [hpc]; exact (if_pos rfl).symm)
  | elements t hpc hne =>
      simp only [releases, hpc, Nat.add_zero] at hinv
      exact h.stay hinv rfl rfl (by rw [hpc]; exact (if_neg hne).symm)
  | copy i hpc =>
      simp only [releases, hpc, Nat.add_zero] at hinv
      exact h.stay hinv rfl rfl (by rw [hpc]; rfl)
  | store i ele hpc =>
      rw [hpc] at hcons hpop
      obtain ⟨-, hele⟩ : i = s.queue.head_ ∧ vals[c]? = some ele := hcons
      simp only [releases, hpc] at hinv
      have happly : boundedFifo (N - 1) a.state .pop =
          (vals.drop (c + 1), .popped (some ele)) := by
        obtain ⟨hlt, heq⟩ := List.getElem?_eq_some_iff.mp hele
        rw [h.state, List.drop_eq_getElem_cons hlt, heq]
        rfl
      apply h.popMoves (.done (.popped (some ele))) hinv ?_ rfl rfl
      have hpoint : Step (boundedFifo (N - 1)) a none _ := Step.point hpop
      rwa [happly] at hpoint

/-- Every step of the queue is one of the atomic FIFO, or none. -/
theorem Simulates.step (h : Simulates N s vals c a) {i : Action T}
    {e : Option (Event Client (Op T) (Result T))}
    (hstep : SpscQueue.step N s i = some (s', e)) : Matches N s' a e := by
  have hinv := h.toInv.step_inv hstep
  have hpush := h.push
  have hpop := h.pop
  have hstate := h.state
  cases i with
  | pushStep =>
      obtain ⟨hmove, rfl⟩ := step_pushStep hstep
      exact h.pushStep hmove
  | popStep =>
      obtain ⟨hmove, rfl⟩ := step_popStep hstep
      exact h.popStep hmove
  | push ele =>
      obtain ⟨hpc, rfl, rfl⟩ := step_push hstep
      rw [hpc] at hpush
      simp only [stores, releases, List.append_nil, Nat.add_zero] at hinv
      refine h.pushMoves _ hinv ?_ rfl rfl
      rw [← hstate]
      exact Step.call _ hpush
  | pushReturn =>
      obtain ⟨ele, ok, hpc, rfl, rfl⟩ := step_pushReturn hstep
      rw [hpc] at hpush
      simp only [stores, releases, List.append_nil, Nat.add_zero] at hinv
      refine h.pushMoves _ hinv ?_ rfl rfl
      rw [← hstate]
      exact Step.ret hpush
  | pop =>
      obtain ⟨hpc, rfl, rfl⟩ := step_pop hstep
      rw [hpc] at hpop
      simp only [stores, releases, List.append_nil, Nat.add_zero] at hinv
      refine h.popMoves _ hinv ?_ rfl rfl
      rw [← hstate]
      exact Step.call _ hpop
  | popReturn =>
      obtain ⟨r, hpc, rfl, rfl⟩ := step_popReturn hstep
      rw [hpc] at hpop
      simp only [stores, releases, List.append_nil, Nat.add_zero] at hinv
      refine h.popMoves _ hinv ?_ rfl rfl
      rw [← hstate]
      exact Step.ret hpop

theorem exec_linearizable (hN : 0 < N) {ptr : Nat → T} {actions : List (Action T)}
    {h : List (Event Client (Op T) (Result T))} (hrun : exec N ptr actions = some (s, h)) :
    Linearizable (boundedFifo (N - 1)) [] h := by
  apply Linearizability.linearizable_of_simulation
    (fun s a => ∃ vals c, Simulates N s vals c a) ?_ ?_ hrun
  · exact ⟨[], 0, Inv.new hN ptr, rfl, rfl, rfl⟩
  · rintro t i t' e a ⟨vals, c, hsim⟩ hstep
    obtain ⟨a', vals', c', htrace, hsim'⟩ := hsim.step hstep
    exact ⟨a', htrace, vals', c', hsim'⟩

end Simulation

end UltraHft.Core.SpscQueue
