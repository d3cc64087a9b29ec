import UltraHft.Tools.Proofs.LiveOrders

/-!
# The stream and the deque

What the messages say of the orders, and what the deque holds of them.  Until
the references come round, the deque lists orders that the stream has added and
not cancelled, in the order in which it added them.
-/

namespace UltraHft.Tools.ItchSender

variable {s : Sender} {c : Choices} {sent msgs : List SentMessage} {msg : SentMessage}
  {ref shares n : Nat} {cs : List Choices}

def SentMessage.added : SentMessage → Option (Nat × Nat)
  | addOrder orderRef _ shares _ _ => some (orderRef, shares)
  | trade .. => none
  | cancel .. => none

def added (msgs : List SentMessage) : List (Nat × Nat) := msgs.filterMap SentMessage.added

theorem added_concat_some {x : Nat × Nat} (h : msg.added = some x) :
    added (sent ++ [msg]) = added sent ++ [x] := by
  rw [added, List.filterMap_append, List.filterMap_cons_some h]
  rfl

theorem added_concat_none (h : msg.added = none) : added (sent ++ [msg]) = added sent := by
  rw [added, List.filterMap_append, List.filterMap_cons_none h]
  exact List.append_nil _

theorem length_added_mono (h : sent <+: msgs) : (added sent).length ≤ (added msgs).length :=
  (h.filterMap SentMessage.added).length_le

/-- The messages have added the order with these shares, and not cancelled it
since. -/
def Open (ref shares : Nat) (sent : List SentMessage) : Prop :=
  ∃ before after side stock price,
    sent = before ++ .addOrder ref side shares stock price :: after ∧
      ∀ n, .cancel ref n ∉ after

theorem Open.concat (h : Open ref shares sent) (hmsg : ∀ n, msg ≠ .cancel ref n) :
    Open ref shares (sent ++ [msg]) := by
  obtain ⟨before, after, side, stock, price, rfl, hafter⟩ := h
  refine ⟨before, after ++ [msg], side, stock, price, by simp, ?_⟩
  intro n hn
  rcases List.mem_append.mp hn with hn | hn
  · exact hafter n hn
  · exact hmsg n (List.mem_singleton.mp hn).symm

theorem open_concat_add (side stock : String) (price : Nat) :
    Open ref shares (sent ++ [.addOrder ref side shares stock price]) :=
  ⟨sent, [], side, stock, price, rfl, fun _ => List.not_mem_nil⟩

structure Tracks (s : Sender) (sent : List SentMessage) : Prop where
  next_eq : s.nextOrderRef = (added sent).length + 1
  refs_eq : (added sent).map Prod.fst = List.range' 1 (added sent).length
  sublist : s.liveOrders.Sublist (added sent)
  isOpen : ∀ x ∈ s.liveOrders, Open x.1 x.2 sent

namespace Tracks

theorem nodup_added (h : Tracks s sent) : ((added sent).map Prod.fst).Nodup := by
  rw [h.refs_eq]
  exact List.nodup_range'

theorem nodup (h : Tracks s sent) : (s.liveOrders.map Prod.fst).Nodup :=
  h.nodup_added.sublist (h.sublist.map Prod.fst)

theorem add (h : Tracks s sent) (hfew : (added sent).length + 1 < 2 ^ 32 - 1)
    {kept : List (Nat × Nat)} (hkept : kept.Sublist s.liveOrders) :
    Tracks { liveOrders := kept ++ [(s.nextOrderRef, c.shares)],
             nextOrderRef := s.newOrderRef.2.nextOrderRef } (sent ++ [s.addMessage c]) := by
  have hadded : added (sent ++ [s.addMessage c]) = added sent ++ [(s.nextOrderRef, c.shares)] :=
    added_concat_some rfl
  have hnext : s.newOrderRef.2.nextOrderRef = s.nextOrderRef + 1 := by
    apply Sender.nextOrderRef_newOrderRef
    rw [h.next_eq]
    omega
  constructor
  case next_eq =>
    rw [hadded, hnext, h.next_eq, List.length_append, List.length_singleton]
  case refs_eq =>
    rw [hadded, List.map_append, h.refs_eq, List.length_append, List.length_singleton,
      List.range'_1_concat, h.next_eq, Nat.add_comm 1]
    rfl
  case sublist =>
    rw [hadded]
    exact (hkept.trans h.sublist).append (List.Sublist.refl _)
  case isOpen =>
    intro x hx
    rcases List.mem_append.mp hx with hx | hx
    · apply (h.isOpen x (hkept.subset hx)).concat
      intro n hn
      cases hn
    · rw [List.mem_singleton.mp hx]
      exact open_concat_add ..

/-- A cancelled order leaves the deque, and the references of the others differ
from its own. -/
theorem cancel (h : Tracks s sent) {before after : List (Nat × Nat)} {x : Nat × Nat}
    (hsplit : s.liveOrders = before ++ x :: after) :
    Tracks { s with liveOrders := before ++ after } (sent ++ [.cancel x.1 x.2]) := by
  have hsub : (before ++ after).Sublist s.liveOrders := by
    rw [hsplit]
    exact (List.Sublist.refl before).append (List.sublist_cons_self x after)
  have hadded : added (sent ++ [.cancel x.1 x.2]) = added sent := added_concat_none rfl
  have hnodup := nodup_taken (hsplit ▸ h.nodup)
  constructor
  case next_eq => rw [hadded, h.next_eq]
  case refs_eq => rw [hadded, h.refs_eq]
  case sublist =>
    rw [hadded]
    exact hsub.trans h.sublist
  case isOpen =>
    intro y hy
    apply (h.isOpen y (hsub.subset hy)).concat
    intro n hn
    have hsame : x.1 = y.1 := (SentMessage.cancel.inj hn).1
    apply hnodup.1
    rw [hsame]
    exact List.mem_map_of_mem hy

theorem trade (h : Tracks s sent) {orderRef m price : Nat} {side stock : String} :
    Tracks s (sent ++ [.trade orderRef side shares stock price m]) := by
  have hadded : added (sent ++ [.trade orderRef side shares stock price m]) = added sent :=
    added_concat_none rfl
  constructor
  case next_eq => rw [hadded, h.next_eq]
  case refs_eq => rw [hadded, h.refs_eq]
  case sublist =>
    rw [hadded]
    exact h.sublist
  case isOpen =>
    intro x hx
    apply (h.isOpen x hx).concat
    intro n hn
    cases hn

theorem iteration (h : Tracks s sent)
    (hfew : (added (sent ++ [(s.iteration c).2])).length < 2 ^ 32 - 1) :
    Tracks (s.iteration c).1 (sent ++ [(s.iteration c).2]) := by
  by_cases hadds : s.Adds c
  · have hadded : added (sent ++ [s.addMessage c]) = added sent ++ [(s.nextOrderRef, c.shares)] :=
      added_concat_some rfl
    rw [Sender.message_of_adds hadds, hadded, List.length_append, List.length_singleton] at hfew
    by_cases hevicts : s.Evicts c
    · rw [Sender.iteration_of_evicts hevicts]
      exact h.add hfew (List.tail_sublist _)
    · rw [Sender.iteration_of_not_evicts hadds hevicts]
      exact h.add hfew (List.Sublist.refl _)
  · by_cases hcancels : Sender.Cancels c
    · obtain ⟨before, after, hsplit, hiter⟩ := Sender.iteration_of_cancels hadds hcancels
      rw [hiter]
      exact h.cancel hsplit
    · rw [Sender.iteration_of_trades hadds hcancels]
      exact h.trade

theorem names_open (h : Tracks s sent) :
    (∀ ref n, (s.iteration c).2 = .cancel ref n → Open ref n sent) ∧
      ∀ ref side n stock price m,
        (s.iteration c).2 = .trade ref side n stock price m → Open ref n sent := by
  by_cases hadds : s.Adds c
  · rw [Sender.message_of_adds hadds]
    constructor
    · intro ref n heq
      cases heq
    · intro ref side n stock price m heq
      cases heq
  · have hpos := Sender.position_lt hadds
    have hdrawn : Open (s.drawn c).1 (s.drawn c).2 sent := by
      apply h.isOpen
      rw [← Sender.getElem_eq_drawn hpos]
      exact List.getElem_mem hpos
    by_cases hcancels : Sender.Cancels c
    · obtain ⟨before, after, -, hiter⟩ := Sender.iteration_of_cancels hadds hcancels
      rw [hiter]
      constructor
      · intro ref n heq
        obtain ⟨rfl, rfl⟩ := SentMessage.cancel.inj heq
        exact hdrawn
      · intro ref side n stock price m heq
        cases heq
    · rw [Sender.iteration_of_trades hadds hcancels]
      constructor
      · intro ref n heq
        cases heq
      · intro ref side n stock price m heq
        obtain ⟨rfl, -, rfl, -⟩ := SentMessage.trade.inj heq
        exact hdrawn

end Tracks

theorem tracks_new : Tracks Sender.new [] where
  next_eq := rfl
  refs_eq := rfl
  sublist := List.Sublist.refl _
  isOpen := by simp [Sender.new]

theorem tracks_generateMessages (cs : List Choices)
    (hfew : (added (Sender.new.generateMessages cs).2).length < 2 ^ 32 - 1) :
    Tracks (Sender.new.generateMessages cs).1 (Sender.new.generateMessages cs).2 := by
  induction cs using List.reverseRecOn with
  | nil => exact tracks_new
  | append_singleton pre c ih =>
      rw [Sender.generateMessages_concat] at hfew ⊢
      have hpre := (length_added_mono (List.prefix_append _ _)).trans_lt hfew
      exact (ih hpre).iteration hfew

theorem prefix_generateMessages_mono {pre : List Choices} (h : pre <+: cs) :
    (Sender.new.generateMessages pre).2 <+: (Sender.new.generateMessages cs).2 := by
  obtain ⟨rest, rfl⟩ := h
  rw [Sender.generateMessages_append]
  exact List.prefix_append _ _

theorem exists_iteration (h : sent ++ [msg] <+: (Sender.new.generateMessages cs).2) :
    ∃ pre c, pre ++ [c] <+: cs ∧ sent = (Sender.new.generateMessages pre).2 ∧
      msg = ((Sender.new.generateMessages pre).1.iteration c).2 := by
  obtain ⟨upto, hupto, heq⟩ := Sender.prefix_generateMessages h
  cases upto using List.reverseRecOn with
  | nil => simp [Sender.generateMessages] at heq
  | append_singleton pre c =>
      rw [Sender.generateMessages_concat] at heq
      obtain ⟨hsent, hmsg⟩ := List.append_inj' heq rfl
      exact ⟨pre, c, hupto, hsent, List.singleton_inj.mp hmsg⟩

/-- Whatever the batches and the random outcomes, in a stream of fewer than
`2 ^ 32 - 1` adds no two share a reference, every cancellation and every trade
names an open order with its shares, and the deque lists added orders in the order
in which they were added, none twice. -/
theorem stream_names_open_orders (batches : List (List Choices))
    (hfew : (added (Sender.new.send batches).2).length < 2 ^ 32 - 1) :
    ((added (Sender.new.send batches).2).map Prod.fst).Nodup ∧
    (∀ sent msg, sent ++ [msg] <+: (Sender.new.send batches).2 →
      (∀ ref n, msg = .cancel ref n → Open ref n sent) ∧
      ∀ ref side n stock price m, msg = .trade ref side n stock price m → Open ref n sent) ∧
    ∀ pre, pre <+: batches.flatten →
      ((Sender.new.generateMessages pre).1.liveOrders.map Prod.fst).Nodup ∧
      (Sender.new.generateMessages pre).1.liveOrders.Sublist
        (added (Sender.new.generateMessages pre).2) := by
  rw [Sender.send_eq_generateMessages] at hfew ⊢
  have htracks : ∀ pre, pre <+: batches.flatten →
      Tracks (Sender.new.generateMessages pre).1 (Sender.new.generateMessages pre).2 :=
    fun pre hpre => tracks_generateMessages pre
      ((length_added_mono (prefix_generateMessages_mono hpre)).trans_lt hfew)
  refine ⟨(htracks _ List.prefix_rfl).nodup_added, ?_, ?_⟩
  · intro sent msg hprefix
    obtain ⟨pre, c, hpre, rfl, rfl⟩ := exists_iteration hprefix
    exact (htracks pre ((List.prefix_append _ _).trans hpre)).names_open
  · intro pre hpre
    exact ⟨(htracks pre hpre).nodup, (htracks pre hpre).sublist⟩

theorem stream_names_open_orders_three :
    ((added (Sender.new.send [[adding], [adding, cancelling]]).2).map Prod.fst).Nodup ∧
    (∀ sent msg, sent ++ [msg] <+: (Sender.new.send [[adding], [adding, cancelling]]).2 →
      (∀ ref n, msg = .cancel ref n → Open ref n sent) ∧
      ∀ ref side n stock price m, msg = .trade ref side n stock price m → Open ref n sent) ∧
    ∀ pre, pre <+: [[adding], [adding, cancelling]].flatten →
      ((Sender.new.generateMessages pre).1.liveOrders.map Prod.fst).Nodup ∧
      (Sender.new.generateMessages pre).1.liveOrders.Sublist
        (added (Sender.new.generateMessages pre).2) :=
  stream_names_open_orders [[adding], [adding, cancelling]] (by decide)

end UltraHft.Tools.ItchSender
