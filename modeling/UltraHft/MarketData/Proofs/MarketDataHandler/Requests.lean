import UltraHft.Lib.Simulation
import UltraHft.MarketData.Proofs.MarketDataHandler.Accounting

/-!
# Messages as requests

What a message asks of the handler can be read off its bytes: one call to the
book or none, and an event that is fired if the book agrees or in any case.  The
handler is a decoder of requests in front of an order book.
-/

namespace UltraHft.MarketData

open UltraHft.Lib

def Answer.affirms : Answer → Bool
  | .added ok => ok
  | .cancelled ok => ok
  | .executed qty => decide (qty > 0)

/-- `always`: the event is fired whatever the book answers. -/
structure Request where
  call : Option BookCall
  event : MarketDataEvent
  always : Bool
  deriving DecidableEq

namespace MarketDataHandler

variable {C : Type} {h : MarketDataHandler C}

def addRequest (instrumentId : UInt32) (msg : Itch.AddOrderMessage) : Request where
  call := some (.add (some (Order.make msg.orderRef instrumentId (sideOf msg.side) msg.price
    msg.shares)))
  event := ⟨.orderAdded, instrumentId, msg.timestamp.toUInt64, .addOrder msg⟩
  always := false

def executeRequest (instrumentId : UInt32) (msg : Itch.ExecuteOrderMessage) : Request where
  call := some (.execute msg.orderRef msg.executedShares)
  event := ⟨.orderExecuted, instrumentId, msg.timestamp.toUInt64, .executeOrder msg⟩
  always := false

def cancelRequest (instrumentId : UInt32) (msg : Itch.CancelOrderMessage) : Request where
  call := some (.cancel msg.orderRef)
  event := ⟨.orderCancelled, instrumentId, msg.timestamp.toUInt64, .cancelOrder msg⟩
  always := false

def deleteRequest (instrumentId : UInt32) (msg : Itch.DeleteOrderMessage) : Request where
  call := some (.cancel msg.orderRef)
  event := ⟨.orderDeleted, instrumentId, msg.timestamp.toUInt64, .deleteOrder msg⟩
  always := false

def replaceRequest (instrumentId : UInt32) (msg : Itch.ReplaceOrderMessage) : Request where
  call := some (.cancel msg.orderRef)
  event := ⟨.orderReplaced, instrumentId, msg.timestamp.toUInt64, .replaceOrder msg⟩
  always := true

def tradeRequest (instrumentId : UInt32) (msg : Itch.TradeMessage) : Request where
  call := none
  event := ⟨.trade, instrumentId, msg.timestamp.toUInt64, .trade msg⟩
  always := true

/-- The request of a message; none is read from one that is too short for its
type or of another type. -/
def requestOf (instrumentId : UInt32) (data : List UInt8) : Option Request :=
  let msgType := (Itch.MessageHeader.read data).messageType
  if msgType = Itch.msgAddOrder ∨ msgType = Itch.msgAddOrderMpid then
    (Itch.AddOrderMessage.cast data).map (addRequest instrumentId)
  else if msgType = Itch.msgExecuteOrder ∨ msgType = Itch.msgExecuteOrderWithPrice then
    (Itch.ExecuteOrderMessage.cast data).map (executeRequest instrumentId)
  else if msgType = Itch.msgCancelOrder then
    (Itch.CancelOrderMessage.cast data).map (cancelRequest instrumentId)
  else if msgType = Itch.msgDeleteOrder then
    (Itch.DeleteOrderMessage.cast data).map (deleteRequest instrumentId)
  else if msgType = Itch.msgReplaceOrder then
    (Itch.ReplaceOrderMessage.cast data).map (replaceRequest instrumentId)
  else if msgType = Itch.msgTrade then
    (Itch.TradeMessage.cast data).map (tradeRequest instrumentId)
  else none

def counting (h : MarketDataHandler C) (data : Option (List UInt8)) : MarketDataHandler C :=
  { h with totalMessages_ := h.totalMessages_ + if isCounted data then 1 else 0 }

/-- Make the call of the request, and fire its event if it is to be fired. -/
def serve (h : MarketDataHandler C) (request : Request) : Option (MarketDataHandler C) :=
  match request.call with
  | none => some (h.fireProcessed request.event.eventType request.event.timestampNs
      request.event.customData)
  | some call => (call.run h.orderBook_).map fun r =>
      let h := { h with orderBook_ := r.2 }
      if request.always || r.1.affirms then
        h.fireProcessed request.event.eventType request.event.timestampNs
          request.event.customData
      else h

/-! ## The handlers serve the requests -/

theorem serve_bind {α : Type} (made : Option (α × OrderBook)) (call : BookCall)
    (answer : α → Answer) (event : MarketDataEvent) (fires : α → Prop) [DecidablePred fires]
    (hrun : call.run h.orderBook_ = made.map (Prod.map answer fun b => b))
    (hfires : ∀ a, fires a ↔ (answer a).affirms = true) :
    (made.bind fun r => if fires r.1 then
        some (fireProcessed { h with orderBook_ := r.2 } event.eventType event.timestampNs
          event.customData)
      else some { h with orderBook_ := r.2 }) =
      h.serve ⟨some call, event, false⟩ := by
  rw [serve]
  dsimp only
  rw [hrun]
  cases made with
  | none => rfl
  | some r =>
      rw [Option.bind_some, Option.map_some, Option.map_some, Bool.false_or]
      by_cases hf : fires r.1
      · rw [if_pos hf]
        exact (congrArg some (if_pos ((hfires r.1).mp hf))).symm
      · rw [if_neg hf]
        exact (congrArg some (if_neg fun ha => hf ((hfires r.1).mpr ha))).symm

theorem processAddOrder_eq (msg : Itch.AddOrderMessage) :
    h.processAddOrder msg = h.serve (addRequest h.instrumentId_ msg) :=
  serve_bind (h.orderBook_.addOrder (some (h.orderOf msg))) _ .added
    (addRequest h.instrumentId_ msg).event (fun added : Bool => added) rfl fun _ => Iff.rfl

theorem processExecuteOrder_eq (msg : Itch.ExecuteOrderMessage) :
    h.processExecuteOrder msg = h.serve (executeRequest h.instrumentId_ msg) :=
  serve_bind (h.orderBook_.executeOrder msg.orderRef msg.executedShares) _ .executed
    (executeRequest h.instrumentId_ msg).event (fun executed : UInt32 => executed > 0) rfl
    fun _ => decide_eq_true_iff.symm

theorem removeOrder_eq (orderRef : UInt64) (event : MarketDataEvent) :
    h.removeOrder orderRef event.eventType event.timestampNs event.customData =
      h.serve ⟨some (.cancel orderRef), event, false⟩ :=
  serve_bind (h.orderBook_.cancelOrder orderRef) _ .cancelled event
    (fun cancelled : Bool => cancelled) rfl fun _ => Iff.rfl

theorem processCancelOrder_eq (msg : Itch.CancelOrderMessage) :
    h.processCancelOrder msg = h.serve (cancelRequest h.instrumentId_ msg) :=
  removeOrder_eq msg.orderRef (cancelRequest h.instrumentId_ msg).event

theorem processDeleteOrder_eq (msg : Itch.DeleteOrderMessage) :
    h.processDeleteOrder msg = h.serve (deleteRequest h.instrumentId_ msg) :=
  removeOrder_eq msg.orderRef (deleteRequest h.instrumentId_ msg).event

/-- The replace message is reported whatever became of the old order. -/
theorem processReplaceOrder_eq (msg : Itch.ReplaceOrderMessage) :
    h.processReplaceOrder msg = h.serve (replaceRequest h.instrumentId_ msg) := by
  rw [processReplaceOrder, serve, replaceRequest]
  dsimp only
  rw [BookCall.run]
  cases h.orderBook_.cancelOrder msg.orderRef <;> rfl

theorem processTrade_eq (msg : Itch.TradeMessage) :
    h.processTrade msg = h.serve (tradeRequest h.instrumentId_ msg) := rfl

theorem dispatch_eq {M : Type} {process : M → Option (MarketDataHandler C)}
    {request : M → Request} (hserve : ∀ m, process m = h.serve (request m)) (msg : Option M) :
    h.dispatch msg process = match msg.map request with
      | none => some (false, h)
      | some request => (h.serve request).map fun h => (true, h) := by
  cases msg with
  | none => rfl
  | some m => rw [dispatch, hserve m, Option.map_some]

theorem requestOf_short {instrumentId : UInt32} {data : List UInt8} (h : data.length < 3) :
    requestOf instrumentId data = none := by
  unfold requestOf Itch.AddOrderMessage.cast Itch.ExecuteOrderMessage.cast
    Itch.CancelOrderMessage.cast Itch.DeleteOrderMessage.cast Itch.ReplaceOrderMessage.cast
    Itch.TradeMessage.cast
  simp [castMessage_short h]

/-- `process_message` counts the buffer and serves its request, if it has one. -/
theorem processMessage_eq (h : MarketDataHandler C) (data : Option (List UInt8)) :
    h.processMessage data = match data.bind (requestOf h.instrumentId_) with
      | none => some (false, h.counting data)
      | some request => ((h.counting data).serve request).map fun h => (true, h) := by
  have hsame : ∀ data, isCounted data = false → h.counting data = h := by
    intro data hno
    rw [counting, hno, if_neg (by decide), UInt64.add_zero]
  cases data with
  | none => rw [hsame none rfl]; rfl
  | some data =>
      rw [Option.bind_some]
      by_cases hlen : data.length < 3
      · have hno : isCounted (some data) = false := by simp [isCounted, hlen]
        rw [requestOf_short hlen, hsame _ hno, processMessage]
        exact if_pos hlen
      · have hcount : h.counting (some data) =
            { h with totalMessages_ := h.totalMessages_ + 1 } := by
          simp [counting, isCounted, Nat.not_lt.mp hlen]
        rw [hcount, processMessage, requestOf]
        dsimp only
        rw [if_neg hlen]
        split_ifs
        · exact dispatch_eq processAddOrder_eq _
        · exact dispatch_eq processExecuteOrder_eq _
        · exact dispatch_eq processCancelOrder_eq _
        · exact dispatch_eq processDeleteOrder_eq _
        · exact dispatch_eq processReplaceOrder_eq _
        · exact dispatch_eq processTrade_eq _
        · rfl

end MarketDataHandler

end UltraHft.MarketData
