import UltraHft.Lib.Runs
import UltraHft.Tools.ItchSender

/-!
# What one iteration of the generator does

An order is added, or the order at some position of the deque is cancelled in
full, or it is traded.  Batches make no difference to the stream.
-/

namespace UltraHft.Tools.ItchSender

open UltraHft.Lib

section Rotate

variable {α : Type*} {l : List α} {idx : Nat}

theorem rotateLeft_eq_drop_append (h : idx < l.length) :
    l.rotateLeft idx = l.drop idx ++ l.take idx := by
  unfold List.rotateLeft
  dsimp only
  split_ifs with hlen
  · obtain rfl : idx = 0 := by omega
    simp
  · rw [Nat.mod_eq_of_lt h]

theorem rotateRight_append (a b : List α) : (b ++ a).rotateRight a.length = a ++ b := by
  cases a with
  | nil => simp [List.rotateRight]
  | cons x a =>
      cases b with
      | nil => simp [List.rotateRight]
      | cons y b =>
          have hlen : ((y :: b) ++ (x :: a)).length = (b.length + 1) + (x :: a).length := by
            rw [List.length_append, List.length_cons]
          have hmod : (x :: a).length % ((y :: b) ++ (x :: a)).length = (x :: a).length :=
            Nat.mod_eq_of_lt (by omega)
          have hsub : ((y :: b) ++ (x :: a)).length - (x :: a).length = (y :: b).length := by
            rw [hlen, Nat.add_sub_cancel, List.length_cons]
          unfold List.rotateRight
          dsimp only
          rw [hmod, hsub, List.drop_left, List.take_left, if_neg]
          rw [hlen, List.length_cons]
          omega

theorem headD_rotateLeft (h : idx < l.length) (d : α) :
    (l.rotateLeft idx).headD d = l[idx] := by
  rw [rotateLeft_eq_drop_append h, List.drop_eq_getElem_cons h]
  rfl

/-- Rotated to the front, popped and rotated back, an element leaves its place
and no other moves. -/
theorem rotateRight_tail_rotateLeft (h : idx < l.length) :
    (l.rotateLeft idx).tail.rotateRight idx = l.take idx ++ l.drop (idx + 1) := by
  have hlen : (l.take idx).length = idx := List.length_take_of_le h.le
  calc (l.rotateLeft idx).tail.rotateRight idx
      = (l.drop (idx + 1) ++ l.take idx).rotateRight (l.take idx).length := by
        rw [rotateLeft_eq_drop_append h, List.drop_eq_getElem_cons h, hlen]
        rfl
    _ = l.take idx ++ l.drop (idx + 1) := rotateRight_append _ _

end Rotate

namespace Sender

variable {s : Sender} {c : Choices}

/-- An order is added while the deque is at its cap; the oldest is dropped from
the deque and no message says so. -/
def Evicts (s : Sender) (c : Choices) : Prop :=
  s.Adds c ∧ liveOrderCap ≤ s.liveOrders.length

instance (s : Sender) (c : Choices) : Decidable (s.Evicts c) :=
  inferInstanceAs (Decidable (_ ∧ _))

def drawn (s : Sender) (c : Choices) : Nat × Nat :=
  s.liveOrders.getD (c.position % s.liveOrders.length) (0, 0)

def addMessage (s : Sender) (c : Choices) : SentMessage :=
  .addOrder s.nextOrderRef (if c.sell then "S" else "B") c.shares (stocks.get c.stock) c.price

theorem position_lt (h : ¬ s.Adds c) :
    c.position % s.liveOrders.length < s.liveOrders.length := by
  unfold Adds at h
  exact Nat.mod_lt _ (List.length_pos_iff.mpr fun hnil => h (.inr hnil))

theorem getElem_eq_drawn (h : c.position % s.liveOrders.length < s.liveOrders.length) :
    s.liveOrders[c.position % s.liveOrders.length] = s.drawn c := by
  rw [drawn, List.getD_eq_getElem?_getD, List.getElem?_eq_getElem h]
  rfl

theorem iteration_of_not_evicts (hadds : s.Adds c) (h : ¬ s.Evicts c) :
    s.iteration c =
      ({ liveOrders := s.liveOrders ++ [(s.nextOrderRef, c.shares)],
         nextOrderRef := s.newOrderRef.2.nextOrderRef }, s.addMessage c) := by
  have hlen : ¬ s.liveOrders.length + 1 > liveOrderCap := by
    intro hlen
    exact h ⟨hadds, Nat.le_of_lt_succ hlen⟩
  simp [iteration, hadds, newOrderRef, hlen, addMessage]

theorem iteration_of_evicts (h : s.Evicts c) :
    s.iteration c =
      ({ liveOrders := s.liveOrders.tail ++ [(s.nextOrderRef, c.shares)],
         nextOrderRef := s.newOrderRef.2.nextOrderRef }, s.addMessage c) := by
  have ⟨hadds, hcap⟩ := h
  have hlen : s.liveOrders.length + 1 > liveOrderCap := by omega
  have hne : s.liveOrders ≠ [] := by
    intro hnil
    simp [hnil, liveOrderCap] at hcap
  simp [iteration, hadds, newOrderRef, hlen, addMessage, List.tail_append_of_ne_nil hne]

theorem message_of_adds (hadds : s.Adds c) : (s.iteration c).2 = s.addMessage c := by
  by_cases hevicts : s.Evicts c
  · rw [iteration_of_evicts hevicts]
  · rw [iteration_of_not_evicts hadds hevicts]

/-- The drawn order leaves the deque and is cancelled in full. -/
theorem iteration_of_cancels (hadds : ¬ s.Adds c) (h : Cancels c) :
    ∃ before after, s.liveOrders = before ++ s.drawn c :: after ∧
      s.iteration c =
        ({ s with liveOrders := before ++ after }, .cancel (s.drawn c).1 (s.drawn c).2) := by
  have hpos := position_lt hadds
  refine ⟨s.liveOrders.take (c.position % s.liveOrders.length),
    s.liveOrders.drop (c.position % s.liveOrders.length + 1), ?_, ?_⟩
  · rw [← getElem_eq_drawn hpos, ← List.drop_eq_getElem_cons hpos, List.take_append_drop]
  · simp only [iteration, if_neg hadds, if_pos h]
    rw [headD_rotateLeft hpos, rotateRight_tail_rotateLeft hpos, getElem_eq_drawn hpos]

theorem iteration_of_trades (hadds : ¬ s.Adds c) (h : ¬ Cancels c) :
    s.iteration c =
      (s, .trade (s.drawn c).1 (if c.sell then "S" else "B") (s.drawn c).2 (stocks.get c.stock)
        c.price c.matchNum) := by
  simp only [iteration, if_neg hadds, if_neg h]
  rfl

theorem length_iteration_le (s : Sender) (c : Choices) :
    (s.iteration c).1.liveOrders.length ≤ s.liveOrders.length + 1 ∧
      (s.liveOrders.length ≤ liveOrderCap →
        (s.iteration c).1.liveOrders.length ≤ liveOrderCap) := by
  by_cases hadds : s.Adds c
  · by_cases hevicts : s.Evicts c
    · have hpos : 0 < liveOrderCap := by decide
      have hcap := hevicts.2
      simp only [iteration_of_evicts hevicts, List.length_append, List.length_tail,
        List.length_singleton]
      exact ⟨by omega, fun _ => by omega⟩
    · have hlt : s.liveOrders.length < liveOrderCap := by
        by_contra hge
        exact hevicts ⟨hadds, Nat.le_of_not_lt hge⟩
      simp only [iteration_of_not_evicts hadds hevicts, List.length_append,
        List.length_singleton]
      exact ⟨by omega, fun _ => by omega⟩
  · by_cases hcancels : Cancels c
    · obtain ⟨before, after, hsplit, hiter⟩ := iteration_of_cancels hadds hcancels
      simp only [hiter, hsplit, List.length_append, List.length_cons]
      exact ⟨by omega, fun _ => by omega⟩
    · rw [iteration_of_trades hadds hcancels]
      exact ⟨Nat.le_succ _, id⟩

theorem nextOrderRef_newOrderRef (h : s.nextOrderRef + 1 < 2 ^ 32) :
    s.newOrderRef.2.nextOrderRef = s.nextOrderRef + 1 := by
  have hmask : (s.nextOrderRef + 1) &&& 0xFFFFFFFF = s.nextOrderRef + 1 := by
    rw [show 0xFFFFFFFF = 2 ^ 32 - 1 from rfl, Nat.and_two_pow_sub_one_eq_mod,
      Nat.mod_eq_of_lt h]
  simp [newOrderRef, hmask]

theorem generateMessages_append (s : Sender) (cs cs' : List Choices) :
    s.generateMessages (cs ++ cs') =
      (((s.generateMessages cs).1.generateMessages cs').1,
        (s.generateMessages cs).2 ++ ((s.generateMessages cs).1.generateMessages cs').2) := by
  induction cs generalizing s with
  | nil => rfl
  | cons c cs ih => simp [generateMessages, ih]

theorem generateMessages_concat (s : Sender) (pre : List Choices) (c : Choices) :
    s.generateMessages (pre ++ [c]) =
      (((s.generateMessages pre).1.iteration c).1,
        (s.generateMessages pre).2 ++ [((s.generateMessages pre).1.iteration c).2]) :=
  generateMessages_append s pre [c]

/-- How the stream is cut into batches makes no difference. -/
theorem send_eq_generateMessages (s : Sender) (batches : List (List Choices)) :
    s.send batches = s.generateMessages batches.flatten := by
  induction batches generalizing s with
  | nil => rfl
  | cons batch batches ih =>
      rw [List.flatten_cons, generateMessages_append, send]
      simp [ih]

theorem length_generateMessages (s : Sender) (cs : List Choices) :
    (s.generateMessages cs).2.length = cs.length := by
  induction cs generalizing s with
  | nil => rfl
  | cons c cs ih => simp [generateMessages, ih]

theorem prefix_generateMessages {cs : List Choices} {sent : List SentMessage}
    (h : sent <+: (s.generateMessages cs).2) :
    ∃ pre, pre <+: cs ∧ sent = (s.generateMessages pre).2 := by
  have hsplit := generateMessages_append s (cs.take sent.length) (cs.drop sent.length)
  rw [List.take_append_drop] at hsplit
  have hle : sent.length ≤ cs.length := by
    rw [← length_generateMessages s cs]
    exact h.length_le
  have hlen : (s.generateMessages (cs.take sent.length)).2.length = sent.length := by
    rw [length_generateMessages, List.length_take_of_le hle]
  have htake := List.prefix_iff_eq_take.mp h
  rw [hsplit] at htake
  refine ⟨cs.take sent.length, List.take_prefix _ _, ?_⟩
  calc sent = _ := htake
    _ = _ := by rw [List.take_append_of_le_length hlen.ge, List.take_of_length_le hlen.le]

end Sender

end UltraHft.Tools.ItchSender
