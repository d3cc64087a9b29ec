import UltraHft.MarketData.Proofs.MarketDataHandler.Notifications
import UltraHft.MarketData.Proofs.MarketDataHandler.Shares

/-!
# What a replace message leaves out

A replacement takes the old order out of the book and puts the new one in its
place.  The handler does the first half only, so that no replacement ever comes
about: a replace message leaves one order fewer or the same orders.
-/

namespace UltraHft.MarketData.MarketDataHandler

open UltraHft.Lib
open OrderBook (Live Gone Stored)

variable {C : Type} {h h' : MarketDataHandler C} {data : List UInt8}
  {msg : Itch.ReplaceOrderMessage}

/-- The old order has gone.  The new one is stored on its side, with the price
and the shares of the message, as the last order of its level.  The other orders
are as before. -/
def Replaced (b b' : OrderBook) (msg : Itch.ReplaceOrderMessage) : Prop :=
  Gone b' msg.orderRef ∧
    ∃ old others j, b.storedOrders = (msg.orderRef, old) ::ₘ others ∧
      Stored b' j ∧ (b'.orders_.slots j).key = msg.newOrderRef ∧
      (b'.heap j).side = old.side ∧ (b'.heap j).price = msg.newPrice ∧
      (b'.heap j).remainingQty = msg.newShares ∧
      (∃ lv ∈ b'.levels old.side, lv.price_ = msg.newPrice ∧ lv.tail_ = some j) ∧
      b'.storedOrders = (b'.orders_.slots j).entry ::ₘ others

/-- The handler returns from the message and the old order is replaced. -/
def Replaces (h : MarketDataHandler C) (data : List UInt8) (msg : Itch.ReplaceOrderMessage) :
    Prop :=
  ∃ ok h', h.processMessage (some data) = some (ok, h') ∧
    Replaced h.orderBook_ h'.orderBook_ msg

/-- To the book a replace message is a cancellation. -/
theorem processMessage_replace_book
    (htype : (Itch.MessageHeader.read data).messageType = Itch.msgReplaceOrder)
    (hcast : Itch.ReplaceOrderMessage.cast data = some msg) :
    (h.processMessage (some data)).map (fun r => r.2.orderBook_) =
      (h.orderBook_.cancelOrder msg.orderRef).map Prod.snd := by
  have hlen : ¬ data.length < 3 := Itch.not_short_of_castMessage hcast (by decide)
  rw [processMessage_replace htype hlen, hcast, dispatch_book, processReplaceOrder_book]

theorem not_replaced_of_cancel {b b' : OrderBook} {cancelled : Bool}
    (hb : FlatOrderMap.Constructed b.orders_)
    (hcancel : b.cancelOrder msg.orderRef = some (cancelled, b')) : ¬ Replaced b b' msg := by
  intro ⟨hgone, old, others, j, hbefore, _, _, _, _, _, _, hafter⟩
  rcases OrderBook.cancelOrder_cases hb hcancel with ⟨_, _, rfl⟩ | ⟨_, i, _, hless⟩
  · -- nothing was cancelled, so the old order is still there
    have hmem : (msg.orderRef, old) ∈ b'.storedOrders := by
      rw [hbefore]
      exact Multiset.mem_cons_self _ _
    obtain ⟨i, hi, hentry⟩ := OrderBook.mem_storedOrders.mp hmem
    exact hgone i hi (congrArg Prod.fst hentry)
  · -- one order has gone and none has come
    have hsame : b'.storedOrders.card = b.storedOrders.card := by
      rw [hafter, hbefore, Multiset.card_cons, Multiset.card_cons]
    rw [hless, Multiset.card_cons] at hsame
    omega

theorem not_replaced_of_message (hb : FlatOrderMap.Constructed h.orderBook_.orders_)
    (htype : (Itch.MessageHeader.read data).messageType = Itch.msgReplaceOrder)
    (hcast : Itch.ReplaceOrderMessage.cast data = some msg) {ok : Bool}
    (hr : h.processMessage (some data) = some (ok, h')) :
    ¬ Replaced h.orderBook_ h'.orderBook_ msg := by
  have hbook := processMessage_replace_book (h := h) htype hcast
  rw [hr, Option.map_some, eq_comm, Option.map_eq_some_iff] at hbook
  obtain ⟨⟨cancelled, book⟩, hcancel, hsame⟩ := hbook
  rw [← hsame]
  exact not_replaced_of_cancel hb hcancel

/-- **No replace message replaces an order.** -/
theorem not_replaces (h : MarketDataHandler C) (hreach : Reachable h) (data : List UInt8)
    (msg : Itch.ReplaceOrderMessage)
    (htype : (Itch.MessageHeader.read data).messageType = Itch.msgReplaceOrder)
    (hcast : Itch.ReplaceOrderMessage.cast data = some msg) : ¬ Replaces h data msg := by
  intro hreplaces
  obtain ⟨ok, h', hr, hreplaced⟩ := hreplaces
  exact not_replaced_of_message hreach.constructed htype hcast hr hreplaced

def replaceHundredOne : List UInt8 :=
  Bytes.toLE 2 36 ++ ['U'.toUInt8, 0] ++ Bytes.toLE 4 0 ++ Bytes.toLE 8 101 ++ Bytes.toLE 8 102 ++
    Bytes.toLE 4 10 ++ Bytes.toLE 8 100

theorem exists_hundredOne : ∃ h : MarketDataHandler Unit, Reachable h ∧
    Live h.orderBook_ 101 100 ∧ Gone h.orderBook_ 102 := by
  have htalk : Says 101 addHundred (.add 100) :=
    ⟨.inl (by decide), _, rfl, by decide, by decide⟩
  obtain ⟨h, hstep, hholds⟩ := processMessage_add_holds (h := new Unit 1)
    (OrderBook.holds_new 1 101) htalk (by decide)
  have hlive : Live h.orderBook_ 101 100 := (hholds.live_iff (by decide)).mpr rfl
  refine ⟨h, ⟨1, [.processMessage (some addHundred)], ?_⟩, hlive, ?_⟩
  · rw [Runs.exec, hstep]
    rfl
  · intro i hstored hkey
    have hocc := hstored.2
    -- the only order is in the slot of 101
    by_cases hi : i = h.orderBook_.orders_.hash 101
    · rw [hi, hholds.key (by decide)] at hkey
      exact absurd hkey (by decide)
    · rw [hholds.alone i hi] at hocc
      cases hocc

theorem not_replaces_hundredOne : ∃ h : MarketDataHandler Unit, Live h.orderBook_ 101 100 ∧
    Gone h.orderBook_ 102 ∧
    ¬ Replaces h replaceHundredOne ⟨36, 'U'.toUInt8, 0, 0, 101, 102, 10, 100⟩ := by
  obtain ⟨h, hreach, hlive, hgone⟩ := exists_hundredOne
  exact ⟨h, hlive, hgone,
    not_replaces h hreach replaceHundredOne _ (by decide) (by decide)⟩

/-- Order 101 is stored, order 102 is not, and the one does not take the place of
the other. -/
theorem storedOrder_not_replaced :
    ¬ ∀ (h : MarketDataHandler Unit) (data : List UInt8) (msg : Itch.ReplaceOrderMessage),
      Reachable h → (Itch.MessageHeader.read data).messageType = Itch.msgReplaceOrder →
      Itch.ReplaceOrderMessage.cast data = some msg →
      (∃ q, Live h.orderBook_ msg.orderRef q) → Gone h.orderBook_ msg.newOrderRef →
      Replaces h data msg := by
  intro hall
  obtain ⟨h, hreach, hlive, hgone⟩ := exists_hundredOne
  have hcast : Itch.ReplaceOrderMessage.cast replaceHundredOne =
      some ⟨36, 'U'.toUInt8, 0, 0, 101, 102, 10, 100⟩ := by decide
  obtain ⟨ok, h', hr, hreplaced⟩ :=
    hall h replaceHundredOne _ hreach (by decide) hcast ⟨100, hlive⟩ hgone
  exact not_replaced_of_message hreach.constructed (by decide) hcast hr hreplaced

end UltraHft.MarketData.MarketDataHandler
