import UltraHft.MarketData.MarketDataHandler
import UltraHft.MarketData.Proofs.OrderBook.Gains

/-!
# Handlers in use

A message makes at most one call to the order book.  What the calls of a book
preserve therefore holds of every handler that was made by the constructor and
used since.
-/

namespace UltraHft.MarketData

open UltraHft.Lib

inductive HandlerCall (C : Type) where
  | registerCallback (callback : C)
  | processMessage (data : Option (List UInt8))
  | reset

namespace MarketDataHandler

variable {C : Type} {h h' : MarketDataHandler C}

def step (h : MarketDataHandler C) : HandlerCall C → Option (MarketDataHandler C)
  | .registerCallback callback => some (h.registerCallback callback)
  | .processMessage data => (h.processMessage data).map Prod.snd
  | .reset => some h.reset

def Reachable (h : MarketDataHandler C) : Prop :=
  ∃ instrumentId calls, Runs.exec step (new C instrumentId) calls = some h

/-! ## What the messages do to the book

Events and counters apart, a message is one call to the book or none. -/

theorem book_bind {α : Type} {made : Option (α × OrderBook)}
    {rest : α × OrderBook → Option (MarketDataHandler C)}
    (hrest : ∀ r, (rest r).map orderBook_ = some r.2) :
    (made.bind rest).map orderBook_ = made.map Prod.snd := by
  cases made with
  | none => rfl
  | some r => exact hrest r

theorem book_ite {fires : Prop} [Decidable fires] {h' : MarketDataHandler C}
    (h : MarketDataHandler C) (hbook : h'.orderBook_ = h.orderBook_) :
    (if fires then some h' else some h).map orderBook_ = some h.orderBook_ := by
  split_ifs
  · rw [Option.map_some, hbook]
  · rfl

def orderOf (h : MarketDataHandler C) (msg : Itch.AddOrderMessage) : Order :=
  Order.make msg.orderRef h.instrumentId_ (sideOf msg.side) msg.price msg.shares

theorem processAddOrder_book (h : MarketDataHandler C) (msg : Itch.AddOrderMessage) :
    (h.processAddOrder msg).map orderBook_ =
      (h.orderBook_.addOrder (some (h.orderOf msg))).map Prod.snd :=
  book_bind fun ⟨_, book⟩ => book_ite { h with orderBook_ := book } rfl

theorem processExecuteOrder_book (h : MarketDataHandler C) (msg : Itch.ExecuteOrderMessage) :
    (h.processExecuteOrder msg).map orderBook_ =
      (h.orderBook_.executeOrder msg.orderRef msg.executedShares).map Prod.snd :=
  book_bind fun ⟨_, book⟩ => book_ite { h with orderBook_ := book } rfl

theorem removeOrder_book (h : MarketDataHandler C) (orderRef : UInt64)
    (eventType : MarketDataEventType) (timestampNs : UInt64) (data : Message) :
    (h.removeOrder orderRef eventType timestampNs data).map orderBook_ =
      (h.orderBook_.cancelOrder orderRef).map Prod.snd :=
  book_bind fun ⟨_, book⟩ => book_ite { h with orderBook_ := book } rfl

theorem processCancelOrder_book (h : MarketDataHandler C) (msg : Itch.CancelOrderMessage) :
    (h.processCancelOrder msg).map orderBook_ =
      (h.orderBook_.cancelOrder msg.orderRef).map Prod.snd :=
  h.removeOrder_book msg.orderRef _ _ _

theorem processDeleteOrder_book (h : MarketDataHandler C) (msg : Itch.DeleteOrderMessage) :
    (h.processDeleteOrder msg).map orderBook_ =
      (h.orderBook_.cancelOrder msg.orderRef).map Prod.snd :=
  h.removeOrder_book msg.orderRef _ _ _

theorem processReplaceOrder_book (h : MarketDataHandler C) (msg : Itch.ReplaceOrderMessage) :
    (h.processReplaceOrder msg).map orderBook_ =
      (h.orderBook_.cancelOrder msg.orderRef).map Prod.snd :=
  book_bind fun ⟨_, _⟩ => rfl

theorem dispatch_book {M : Type} {m : M} (process : M → Option (MarketDataHandler C)) :
    (h.dispatch (some m) process).map (fun r => r.2.orderBook_) =
      (process m).map orderBook_ := by
  rw [dispatch, Option.map_map]
  rfl

section Messages

variable {data : List UInt8}

theorem processMessage_add {msg : Itch.AddOrderMessage}
    (htype : (Itch.MessageHeader.read data).messageType = Itch.msgAddOrder ∨
      (Itch.MessageHeader.read data).messageType = Itch.msgAddOrderMpid)
    (hcast : Itch.AddOrderMessage.cast data = some msg) :
    (h.processMessage (some data)).map (fun r => r.2.orderBook_) =
      (h.orderBook_.addOrder (some (h.orderOf msg))).map Prod.snd := by
  have hlen : ¬ data.length < 3 := Itch.not_short_of_castMessage hcast (by decide)
  rw [processMessage]
  dsimp only
  rw [if_neg hlen, if_pos htype, hcast, dispatch_book, processAddOrder_book]
  rfl

theorem processMessage_execute {msg : Itch.ExecuteOrderMessage}
    (htype : (Itch.MessageHeader.read data).messageType = Itch.msgExecuteOrder ∨
      (Itch.MessageHeader.read data).messageType = Itch.msgExecuteOrderWithPrice)
    (hcast : Itch.ExecuteOrderMessage.cast data = some msg) :
    (h.processMessage (some data)).map (fun r => r.2.orderBook_) =
      (h.orderBook_.executeOrder msg.orderRef msg.executedShares).map Prod.snd := by
  have hlen : ¬ data.length < 3 := Itch.not_short_of_castMessage hcast (by decide)
  have hadd : ¬ ((Itch.MessageHeader.read data).messageType = Itch.msgAddOrder ∨
      (Itch.MessageHeader.read data).messageType = Itch.msgAddOrderMpid) := by
    rcases htype with htype | htype
    all_goals
      rw [htype]
      decide
  rw [processMessage]
  dsimp only
  rw [if_neg hlen, if_neg hadd, if_pos htype, hcast, dispatch_book, processExecuteOrder_book]

theorem processMessage_cancel {msg : Itch.CancelOrderMessage}
    (htype : (Itch.MessageHeader.read data).messageType = Itch.msgCancelOrder)
    (hcast : Itch.CancelOrderMessage.cast data = some msg) :
    (h.processMessage (some data)).map (fun r => r.2.orderBook_) =
      (h.orderBook_.cancelOrder msg.orderRef).map Prod.snd := by
  have hlen : ¬ data.length < 3 := Itch.not_short_of_castMessage hcast (by decide)
  rw [processMessage]
  dsimp only
  rw [if_neg hlen, htype, if_neg (by decide), if_neg (by decide), if_pos rfl, hcast,
    dispatch_book, processCancelOrder_book]

end Messages

def OneCall (h h' : MarketDataHandler C) : Prop :=
  h'.orderBook_ = h.orderBook_ ∨
    ∃ (call : BookCall) (answer : Answer), call.run h.orderBook_ = some (answer, h'.orderBook_)

theorem oneCall_of_book {α : Type} {answer : α → Answer} {c : BookCall}
    {made : Option (α × OrderBook)} {after : Option (MarketDataHandler C)}
    (hafter : after.map orderBook_ = made.map Prod.snd) (hr : after = some h')
    (hrun : c.run h.orderBook_ = made.map (Prod.map answer id)) : OneCall h h' := by
  rw [hr, Option.map_some, eq_comm, Option.map_eq_some_iff] at hafter
  have ⟨r, hmade, hbook⟩ := hafter
  refine .inr ⟨c, answer r.1, ?_⟩
  rw [hrun, hmade, ← hbook]
  rfl

theorem added_oneCall {msg : Itch.AddOrderMessage}
    (hr : h.processAddOrder msg = some h') : OneCall h h' :=
  oneCall_of_book (h.processAddOrder_book msg) hr (c := .add (some (h.orderOf msg))) rfl

theorem executed_oneCall {msg : Itch.ExecuteOrderMessage}
    (hr : h.processExecuteOrder msg = some h') : OneCall h h' :=
  oneCall_of_book (h.processExecuteOrder_book msg) hr
    (c := .execute msg.orderRef msg.executedShares) rfl

theorem cancelled_oneCall {msg : Itch.CancelOrderMessage}
    (hr : h.processCancelOrder msg = some h') : OneCall h h' :=
  oneCall_of_book (h.processCancelOrder_book msg) hr (c := .cancel msg.orderRef) rfl

theorem deleted_oneCall {msg : Itch.DeleteOrderMessage}
    (hr : h.processDeleteOrder msg = some h') : OneCall h h' :=
  oneCall_of_book (h.processDeleteOrder_book msg) hr (c := .cancel msg.orderRef) rfl

theorem replaced_oneCall {msg : Itch.ReplaceOrderMessage}
    (hr : h.processReplaceOrder msg = some h') : OneCall h h' :=
  oneCall_of_book (h.processReplaceOrder_book msg) hr (c := .cancel msg.orderRef) rfl

theorem dispatch_oneCall {M : Type} {msg : Option M}
    {process : M → Option (MarketDataHandler C)} {ok : Bool}
    (hprocess : ∀ m h', process m = some h' → OneCall h h')
    (hr : h.dispatch msg process = some (ok, h')) : OneCall h h' := by
  unfold dispatch at hr
  cases msg with
  | none =>
      rw [← (Prod.mk.inj (Option.some.inj hr)).2]
      exact .inl rfl
  | some m =>
      rw [Option.map_eq_some_iff] at hr
      have ⟨h'', hp, heq⟩ := hr
      rw [← (Prod.mk.inj heq).2]
      exact hprocess m h'' hp

theorem processMessage_oneCall {data : Option (List UInt8)} {ok : Bool}
    (hr : h.processMessage data = some (ok, h')) : OneCall h h' := by
  have hsame : ∀ (ok' : Bool) (h₁ : MarketDataHandler C), h₁.orderBook_ = h.orderBook_ →
      some (ok', h₁) = some (ok, h') → OneCall h h' := by
    intro ok' h₁ hbook heq
    rw [← (Prod.mk.inj (Option.some.inj heq)).2]
    exact .inl hbook
  -- counting the message leaves the book alone
  have hcount : ∀ h'' : MarketDataHandler C,
      OneCall { h with totalMessages_ := h.totalMessages_ + 1 } h'' → OneCall h h'' :=
    fun _ hone => hone
  unfold processMessage at hr
  cases data with
  | none => exact hsame _ h rfl hr
  | some data =>
      dsimp only at hr
      split_ifs at hr
      · exact hsame _ h rfl hr
      · exact hcount _ (dispatch_oneCall (fun _ _ => added_oneCall) hr)
      · exact hcount _ (dispatch_oneCall (fun _ _ => executed_oneCall) hr)
      · exact hcount _ (dispatch_oneCall (fun _ _ => cancelled_oneCall) hr)
      · exact hcount _ (dispatch_oneCall (fun _ _ => deleted_oneCall) hr)
      · exact hcount _ (dispatch_oneCall (fun _ _ => replaced_oneCall) hr)
      · apply hcount
        apply dispatch_oneCall ?_ hr
        intro msg h'' hp
        rw [← Option.some.inj hp]
        exact .inl rfl
      · exact hsame _ { h with totalMessages_ := h.totalMessages_ + 1 } rfl hr

theorem processMessage_constructed (hh : FlatOrderMap.Constructed h.orderBook_.orders_)
    {data : Option (List UInt8)} {ok : Bool} (hr : h.processMessage data = some (ok, h')) :
    FlatOrderMap.Constructed h'.orderBook_.orders_ := by
  rcases processMessage_oneCall hr with hsame | ⟨call, answer, hrun⟩
  · rw [hsame]
    exact hh
  · exact OrderBook.run_constructed hh hrun

theorem Reachable.constructed (hr : Reachable h) :
    FlatOrderMap.Constructed h.orderBook_.orders_ := by
  have ⟨instrumentId, calls, hexec⟩ := hr
  have hnew : FlatOrderMap.Constructed (OrderBook.new instrumentId).orders_ :=
    FlatOrderMap.new_constructed FlatOrderMap.kDefaultCapacity
  apply Runs.exec_partial (fun _ (h : MarketDataHandler C) =>
    FlatOrderMap.Constructed h.orderBook_.orders_) hnew ?_ hexec
  intro pre call h h' _ _ hh hstep
  cases call with
  | registerCallback callback =>
      rw [← Option.some.inj hstep]
      exact hh
  | processMessage data =>
      rw [step, Option.map_eq_some_iff] at hstep
      have ⟨⟨ok, h''⟩, hp, heq⟩ := hstep
      rw [← heq]
      exact processMessage_constructed hh hp
  | reset =>
      rw [← Option.some.inj hstep]
      exact FlatOrderMap.new_constructed FlatOrderMap.kDefaultCapacity

theorem reachable_new (instrumentId : UInt32) : Reachable (new C instrumentId) :=
  ⟨instrumentId, [], rfl⟩

end MarketDataHandler

end UltraHft.MarketData
