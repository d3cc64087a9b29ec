import UltraHft.Lib.Bytes

/-!
# ITCH messages

`itch_messages.hpp`: packed structs that the handler reads in place, so every
integer has the byte order of the machine, which is little-endian.
-/

namespace UltraHft.MarketData.Itch

open UltraHft.Lib

def msgAddOrder : UInt8 := 'A'.toUInt8
def msgAddOrderMpid : UInt8 := 'F'.toUInt8
def msgExecuteOrder : UInt8 := 'E'.toUInt8
def msgExecuteOrderWithPrice : UInt8 := 'C'.toUInt8
def msgCancelOrder : UInt8 := 'X'.toUInt8
def msgDeleteOrder : UInt8 := 'D'.toUInt8
def msgReplaceOrder : UInt8 := 'U'.toUInt8
def msgTrade : UInt8 := 'P'.toUInt8

/-! Members of a packed struct, by their offset. -/

def u8 (off : Nat) (data : List UInt8) : UInt8 := UInt8.ofNat (Bytes.field off 1 data)
def u16 (off : Nat) (data : List UInt8) : UInt16 := UInt16.ofNat (Bytes.field off 2 data)
def u32 (off : Nat) (data : List UInt8) : UInt32 := UInt32.ofNat (Bytes.field off 4 data)
def u64 (off : Nat) (data : List UInt8) : UInt64 := UInt64.ofNat (Bytes.field off 8 data)

structure MessageHeader where
  length : UInt16
  messageType : UInt8
  deriving Repr, DecidableEq

def MessageHeader.read (data : List UInt8) : MessageHeader where
  length := u16 0 data
  messageType := u8 2 data

structure AddOrderMessage where
  length : UInt16
  messageType : UInt8
  reserved : UInt8
  timestamp : UInt32
  orderRef : UInt64
  side : UInt8
  shares : UInt32
  stock : List UInt8
  price : UInt64
  mpid : UInt32
  deriving Repr, DecidableEq

structure ExecuteOrderMessage where
  length : UInt16
  messageType : UInt8
  reserved : UInt8
  timestamp : UInt32
  orderRef : UInt64
  executedShares : UInt32
  executionPrice : UInt64
  executionId : UInt32
  crossTradeId : UInt32
  deriving Repr, DecidableEq

structure CancelOrderMessage where
  length : UInt16
  messageType : UInt8
  reserved : UInt8
  timestamp : UInt32
  orderRef : UInt64
  cancelledShares : UInt32
  deriving Repr, DecidableEq

structure DeleteOrderMessage where
  length : UInt16
  messageType : UInt8
  reserved : UInt8
  timestamp : UInt32
  orderRef : UInt64
  deriving Repr, DecidableEq

structure ReplaceOrderMessage where
  length : UInt16
  messageType : UInt8
  reserved : UInt8
  timestamp : UInt32
  orderRef : UInt64
  newOrderRef : UInt64
  newShares : UInt32
  newPrice : UInt64
  deriving Repr, DecidableEq

structure TradeMessage where
  length : UInt16
  messageType : UInt8
  reserved : UInt8
  timestamp : UInt32
  orderRef : UInt64
  side : UInt8
  shares : UInt32
  stock : List UInt8
  price : UInt64
  tradeId : UInt32
  crossTradeId : UInt8
  deriving Repr, DecidableEq

/-- `cast_message<T>`: null unless `sizeof(T)` bytes are there. -/
def castMessage {M : Type} (size : Nat) (read : List UInt8 → M) (data : List UInt8) :
    Option M :=
  if data.length < size then none else some (read data)

theorem le_length_of_castMessage {M : Type} {size : Nat} {read : List UInt8 → M}
    {data : List UInt8} {msg : M} (h : castMessage size read data = some msg) :
    size ≤ data.length := by
  unfold castMessage at h
  split_ifs at h with hshort
  exact Nat.not_lt.mp hshort

/-- The handler takes no message that can be read for one that is too short. -/
theorem not_short_of_castMessage {M : Type} {size : Nat} {read : List UInt8 → M}
    {data : List UInt8} {msg : M} (h : castMessage size read data = some msg)
    (hsize : 3 ≤ size) : ¬ data.length < 3 := by
  have hle := le_length_of_castMessage h
  omega

def AddOrderMessage.cast : List UInt8 → Option AddOrderMessage :=
  castMessage 41 fun data =>
    { length := u16 0 data
      messageType := u8 2 data
      reserved := u8 3 data
      timestamp := u32 4 data
      orderRef := u64 8 data
      side := u8 16 data
      shares := u32 17 data
      stock := (data.drop 21).take 8
      price := u64 29 data
      mpid := u32 37 data }

def ExecuteOrderMessage.cast : List UInt8 → Option ExecuteOrderMessage :=
  castMessage 36 fun data =>
    { length := u16 0 data
      messageType := u8 2 data
      reserved := u8 3 data
      timestamp := u32 4 data
      orderRef := u64 8 data
      executedShares := u32 16 data
      executionPrice := u64 20 data
      executionId := u32 28 data
      crossTradeId := u32 32 data }

def CancelOrderMessage.cast : List UInt8 → Option CancelOrderMessage :=
  castMessage 20 fun data =>
    { length := u16 0 data
      messageType := u8 2 data
      reserved := u8 3 data
      timestamp := u32 4 data
      orderRef := u64 8 data
      cancelledShares := u32 16 data }

def DeleteOrderMessage.cast : List UInt8 → Option DeleteOrderMessage :=
  castMessage 16 fun data =>
    { length := u16 0 data
      messageType := u8 2 data
      reserved := u8 3 data
      timestamp := u32 4 data
      orderRef := u64 8 data }

def ReplaceOrderMessage.cast : List UInt8 → Option ReplaceOrderMessage :=
  castMessage 36 fun data =>
    { length := u16 0 data
      messageType := u8 2 data
      reserved := u8 3 data
      timestamp := u32 4 data
      orderRef := u64 8 data
      newOrderRef := u64 16 data
      newShares := u32 24 data
      newPrice := u64 28 data }

def TradeMessage.cast : List UInt8 → Option TradeMessage :=
  castMessage 42 fun data =>
    { length := u16 0 data
      messageType := u8 2 data
      reserved := u8 3 data
      timestamp := u32 4 data
      orderRef := u64 8 data
      side := u8 16 data
      shares := u32 17 data
      stock := (data.drop 21).take 8
      price := u64 29 data
      tradeId := u32 37 data
      crossTradeId := u8 41 data }

end UltraHft.MarketData.Itch
