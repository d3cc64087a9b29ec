import UltraHft.MarketData.ItchMessages
import UltraHft.MarketData.OrderBook

/-!
# The market data handler

`market_data_handler.hpp`: one ITCH message at a time, to the order book and to
the registered callbacks.  The callbacks are user code that does not re-enter
the handler; what is kept of them is which was invoked with what.  A call that
never returns, because the order book does not, is `none`.
-/

namespace UltraHft.MarketData

open Itch

inductive MarketDataEventType where
  | orderAdded
  | orderExecuted
  | orderCancelled
  | orderDeleted
  | orderReplaced
  | trade
  | systemEvent
  | unknown
  deriving Repr, DecidableEq

/-- What the `const void*` of an event points to. -/
inductive Message where
  | addOrder (msg : AddOrderMessage)
  | executeOrder (msg : ExecuteOrderMessage)
  | cancelOrder (msg : CancelOrderMessage)
  | deleteOrder (msg : DeleteOrderMessage)
  | replaceOrder (msg : ReplaceOrderMessage)
  | trade (msg : TradeMessage)
  deriving Repr, DecidableEq

/-- The arguments of a callback. -/
structure MarketDataEvent where
  eventType : MarketDataEventType
  instrumentId : UInt32
  timestampNs : UInt64
  customData : Message
  deriving Repr, DecidableEq

structure MarketDataHandler (C : Type) where
  instrumentId_ : UInt32
  orderBook_ : OrderBook
  callbacks_ : List C
  totalMessages_ : UInt64
  messagesProcessed_ : UInt64
  invoked : List (C × MarketDataEvent)

namespace MarketDataHandler

variable {C : Type}

def new (C : Type) (instrumentId : UInt32) : MarketDataHandler C where
  instrumentId_ := instrumentId
  orderBook_ := OrderBook.new instrumentId
  callbacks_ := []
  totalMessages_ := 0
  messagesProcessed_ := 0
  invoked := []

def registerCallback (h : MarketDataHandler C) (callback : C) : MarketDataHandler C :=
  { h with callbacks_ := h.callbacks_ ++ [callback] }

def fireCallback (h : MarketDataHandler C) (eventType : MarketDataEventType)
    (timestampNs : UInt64) (data : Message) : MarketDataHandler C :=
  { h with invoked := h.invoked ++ h.callbacks_.map fun callback =>
      (callback, ⟨eventType, h.instrumentId_, timestampNs, data⟩) }

def fireProcessed (h : MarketDataHandler C) (eventType : MarketDataEventType)
    (timestampNs : UInt64) (data : Message) : MarketDataHandler C :=
  let h := h.fireCallback eventType timestampNs data
  { h with messagesProcessed_ := h.messagesProcessed_ + 1 }

def sideOf (side : UInt8) : Side := if side = 'B'.toUInt8 then .buy else .sell

def processAddOrder (h : MarketDataHandler C) (msg : AddOrderMessage) :
    Option (MarketDataHandler C) := do
  let order := Order.make msg.orderRef h.instrumentId_ (sideOf msg.side) msg.price msg.shares
  let (added, book) ← h.orderBook_.addOrder (some order)
  let h := { h with orderBook_ := book }
  if added then
    some (h.fireProcessed .orderAdded msg.timestamp.toUInt64 (.addOrder msg))
  else some h

def processExecuteOrder (h : MarketDataHandler C) (msg : ExecuteOrderMessage) :
    Option (MarketDataHandler C) := do
  let (executed, book) ← h.orderBook_.executeOrder msg.orderRef msg.executedShares
  let h := { h with orderBook_ := book }
  if executed > 0 then
    some (h.fireProcessed .orderExecuted msg.timestamp.toUInt64 (.executeOrder msg))
  else some h

/-- What cancel and delete messages share: the whole order is cancelled. -/
def removeOrder (h : MarketDataHandler C) (orderRef : UInt64)
    (eventType : MarketDataEventType) (timestampNs : UInt64) (data : Message) :
    Option (MarketDataHandler C) := do
  let (cancelled, book) ← h.orderBook_.cancelOrder orderRef
  let h := { h with orderBook_ := book }
  if cancelled then some (h.fireProcessed eventType timestampNs data) else some h

def processCancelOrder (h : MarketDataHandler C) (msg : CancelOrderMessage) :
    Option (MarketDataHandler C) :=
  h.removeOrder msg.orderRef .orderCancelled msg.timestamp.toUInt64 (.cancelOrder msg)

def processDeleteOrder (h : MarketDataHandler C) (msg : DeleteOrderMessage) :
    Option (MarketDataHandler C) :=
  h.removeOrder msg.orderRef .orderDeleted msg.timestamp.toUInt64 (.deleteOrder msg)

/-- The old order is cancelled; nothing is added in its place. -/
def processReplaceOrder (h : MarketDataHandler C) (msg : ReplaceOrderMessage) :
    Option (MarketDataHandler C) := do
  let (_, book) ← h.orderBook_.cancelOrder msg.orderRef
  let h := { h with orderBook_ := book }
  some (h.fireProcessed .orderReplaced msg.timestamp.toUInt64 (.replaceOrder msg))

def processTrade (h : MarketDataHandler C) (msg : TradeMessage) :
    Option (MarketDataHandler C) :=
  some (h.fireProcessed .trade msg.timestamp.toUInt64 (.trade msg))

/-- `if (msg) process(msg); return msg != nullptr;` -/
def dispatch {M : Type} (h : MarketDataHandler C) (msg : Option M)
    (process : M → Option (MarketDataHandler C)) : Option (Bool × MarketDataHandler C) :=
  match msg with
  | none => some (false, h)
  | some msg => (process msg).map fun h => (true, h)

/-- `process_message`; the argument is a pointer to a buffer of `size` bytes. -/
def processMessage (h : MarketDataHandler C) (data : Option (List UInt8)) :
    Option (Bool × MarketDataHandler C) :=
  match data with
  | none => some (false, h)
  | some data =>
      if data.length < 3 then some (false, h)
      else
        let h := { h with totalMessages_ := h.totalMessages_ + 1 }
        let msgType := (MessageHeader.read data).messageType
        if msgType = msgAddOrder ∨ msgType = msgAddOrderMpid then
          h.dispatch (AddOrderMessage.cast data) h.processAddOrder
        else if msgType = msgExecuteOrder ∨ msgType = msgExecuteOrderWithPrice then
          h.dispatch (ExecuteOrderMessage.cast data) h.processExecuteOrder
        else if msgType = msgCancelOrder then
          h.dispatch (CancelOrderMessage.cast data) h.processCancelOrder
        else if msgType = msgDeleteOrder then
          h.dispatch (DeleteOrderMessage.cast data) h.processDeleteOrder
        else if msgType = msgReplaceOrder then
          h.dispatch (ReplaceOrderMessage.cast data) h.processReplaceOrder
        else if msgType = msgTrade then
          h.dispatch (TradeMessage.cast data) h.processTrade
        else some (false, h)

def pendingOrders (h : MarketDataHandler C) : Nat := h.orderBook_.orderCount

/-- `reset`: the callbacks stay registered. -/
def reset (h : MarketDataHandler C) : MarketDataHandler C :=
  { h with orderBook_ := OrderBook.new h.instrumentId_, totalMessages_ := 0,
           messagesProcessed_ := 0 }

end MarketDataHandler

end UltraHft.MarketData
