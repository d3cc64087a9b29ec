import UltraHft.Lib.Reads
import UltraHft.MarketData.MarketDataHandler

/-!
# Processing a message in place

`process_message` as a program that reads the buffer it is given a pointer to:
the header, and all of the struct that the message type selects, as the
callbacks are handed a pointer to it.
-/

namespace UltraHft.MarketData

open UltraHft.Lib Itch

/-- `cast_message<T>`, and the struct it points to. -/
def Itch.castMessageAt {M : Type} (size : Nat) (cast : List UInt8 → Option M)
    (data availableSize : Nat) : Reads (Option M) :=
  if availableSize < size then return none
  else do
    let bytes ← Reads.bytes data size
    return cast bytes

namespace MarketDataHandler

variable {C : Type}

def dispatchAt {M : Type} (h : MarketDataHandler C) (msg : Reads (Option M))
    (process : M → Option (MarketDataHandler C)) : Reads (Bool × MarketDataHandler C) := do
  let msg ← msg
  Reads.ofOption (h.dispatch msg process)

/-- `process_message`; the null pointer is `none`. -/
def processMessageAt (h : MarketDataHandler C) (data : Option Nat) (size : Nat) :
    Reads (Bool × MarketDataHandler C) :=
  match data with
  | none => return (false, h)
  | some data =>
      if size < 3 then return (false, h)
      else do
        let h := { h with totalMessages_ := h.totalMessages_ + 1 }
        let header ← Reads.bytes data 3
        let msgType := (MessageHeader.read header).messageType
        if msgType = msgAddOrder ∨ msgType = msgAddOrderMpid then
          h.dispatchAt (castMessageAt 41 AddOrderMessage.cast data size) h.processAddOrder
        else if msgType = msgExecuteOrder ∨ msgType = msgExecuteOrderWithPrice then
          h.dispatchAt (castMessageAt 36 ExecuteOrderMessage.cast data size)
            h.processExecuteOrder
        else if msgType = msgCancelOrder then
          h.dispatchAt (castMessageAt 20 CancelOrderMessage.cast data size) h.processCancelOrder
        else if msgType = msgDeleteOrder then
          h.dispatchAt (castMessageAt 16 DeleteOrderMessage.cast data size) h.processDeleteOrder
        else if msgType = msgReplaceOrder then
          h.dispatchAt (castMessageAt 36 ReplaceOrderMessage.cast data size)
            h.processReplaceOrder
        else if msgType = msgTrade then
          h.dispatchAt (castMessageAt 42 TradeMessage.cast data size) h.processTrade
        else return (false, h)

end MarketDataHandler

end UltraHft.MarketData
