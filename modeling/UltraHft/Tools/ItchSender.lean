import UltraHft.Lib.Bytes

/-!
# The test-stream sender

`itch_sender.py`.  Python integers that are never negative are naturals; `none` is
the `struct.error` that `struct.pack` raises for a value that does not fit its
format.  The clock and the random choices are arguments.
-/

namespace UltraHft.Tools.ItchSender

open UltraHft.Lib

/-! ## Message builders -/

def encode (s : String) : List UInt8 := s.toUTF8.data.toList

def ljust (width : Nat) (l : List UInt8) : List UInt8 :=
  l ++ List.replicate (width - l.length) ' '.toUInt8

/-- An unsigned integer of `w` bytes after `>`. -/
def packUnsigned (w : Nat) (n : Int) : Option (List UInt8) :=
  if 0 ≤ n ∧ n.toNat < 256 ^ w then some (Bytes.toBE w n.toNat) else none

/-- Format `c`: one byte. -/
def packChar : List UInt8 → Option (List UInt8)
  | [b] => some [b]
  | _ => none

/-- `_ts`: the nanoseconds since midnight, cut to 32 bits. -/
def ts (nanoseconds : Nat) : Nat := nanoseconds &&& 0xFFFFFFFF

/-- `struct.pack('>HcBI', total_len, message_type, 0, _ts()) + body` -/
def withHeader (messageType : Char) (nanoseconds : Nat) (body : List UInt8) :
    Option (List UInt8) := do
  let totalLen := 2 + 1 + 1 + 4 + body.length
  let length ← packUnsigned 2 totalLen
  let reserved ← packUnsigned 1 (0 : Nat)
  let timestamp ← packUnsigned 4 (ts nanoseconds)
  some (length ++ [messageType.toUInt8] ++ reserved ++ timestamp ++ body)

/-- The fields that add and trade messages share: `'>QcI8sQ'`. -/
def packOrder (orderRef : Nat) (side : String) (shares : Nat) (stock : String) (price : Nat) :
    Option (List UInt8) := do
  let stockBytes := (ljust 8 (encode stock)).take 8
  let orderRef ← packUnsigned 8 orderRef
  let side ← packChar (encode side)
  let shares ← packUnsigned 4 shares
  let price ← packUnsigned 8 price
  some (orderRef ++ side ++ shares ++ stockBytes ++ price)

def makeAddOrder (nanoseconds orderRef : Nat) (side : String) (shares : Nat) (stock : String)
    (price : Nat) : Option (List UInt8) := do
  let order ← packOrder orderRef side shares stock price
  let mpid ← packUnsigned 4 (0 : Nat)
  withHeader 'A' nanoseconds (order ++ mpid)

def makeTrade (nanoseconds orderRef : Nat) (side : String) (shares : Nat) (stock : String)
    (price matchNum : Nat) : Option (List UInt8) := do
  let order ← packOrder orderRef side shares stock price
  let matchNum ← packUnsigned 4 matchNum
  withHeader 'P' nanoseconds (order ++ matchNum ++ ['0'.toUInt8])

def makeCancel (nanoseconds orderRef cancelledShares : Nat) : Option (List UInt8) := do
  let orderRef ← packUnsigned 8 orderRef
  let cancelledShares ← packUnsigned 4 cancelledShares
  withHeader 'X' nanoseconds (orderRef ++ cancelledShares)

/-! ## MoldUDP64 framing -/

def session : List UInt8 := encode "TESTSESS  "

/-- `struct.pack('>H', len(m)) + m` -/
def packBlock (m : List UInt8) : Option (List UInt8) := do
  let length ← packUnsigned 2 m.length
  some (length ++ m)

def buildMoldudp64Frame (seq : Int) (messages : List (List UInt8)) : Option (List UInt8) := do
  let seq ← packUnsigned 8 seq
  let count ← packUnsigned 2 messages.length
  let header := session ++ (seq ++ count)
  let body ← messages.mapM packBlock
  some (header ++ body.flatten)

/-! ## The stream -/

/-- A message as the call of the builder that packs it. -/
inductive SentMessage where
  | addOrder (orderRef : Nat) (side : String) (shares : Nat) (stock : String) (price : Nat)
  | trade (orderRef : Nat) (side : String) (shares : Nat) (stock : String)
      (price matchNum : Nat)
  | cancel (orderRef cancelledShares : Nat)
  deriving Repr, DecidableEq

def SentMessage.pack (nanoseconds : Nat) : SentMessage → Option (List UInt8)
  | addOrder orderRef side shares stock price =>
      makeAddOrder nanoseconds orderRef side shares stock price
  | trade orderRef side shares stock price matchNum =>
      makeTrade nanoseconds orderRef side shares stock price matchNum
  | cancel orderRef cancelledShares => makeCancel nanoseconds orderRef cancelledShares

/-- `STOCKS`, each stripped of its padding. -/
def stocks : List String := ["AAPL", "MSFT", "GOOGL", "AMZN", "NVDA"]

def liveOrderCap : Nat := 50000

/-- The outcomes of the random choices of one iteration.  `random.random()` is a
multiple of `2 ^ -53`, of which `r` is the numerator; a position in the deque is
`position` modulo its length. -/
structure Choices where
  stock : Fin stocks.length
  shares : Nat
  price : Nat
  sell : Bool
  r : Nat
  position : Nat
  matchNum : Nat
  shares_range : 100 ≤ shares ∧ shares ≤ 10000 := by decide
  price_range : 10000 ≤ price ∧ price ≤ 500000 := by decide
  r_range : r < 2 ^ 53 := by decide
  matchNum_range : 1 ≤ matchNum ∧ matchNum ≤ 0xFFFFFFFF := by decide

/-- The globals `_live_orders`, from left to right, and `_next_order_ref`. -/
structure Sender where
  liveOrders : List (Nat × Nat)
  nextOrderRef : Nat
  deriving Repr, DecidableEq

namespace Sender

def new : Sender where
  liveOrders := []
  nextOrderRef := 1

/-- `_new_order_ref`; zero is falsy, so the counter goes on with one. -/
def newOrderRef (s : Sender) : Nat × Sender :=
  let next := (s.nextOrderRef + 1) &&& 0xFFFFFFFF
  (s.nextOrderRef, { s with nextOrderRef := if next = 0 then 1 else next })

/-- `r < 0.50 or not _live_orders` -/
def Adds (s : Sender) (c : Choices) : Prop := c.r < 2 ^ 52 ∨ s.liveOrders = []

instance (s : Sender) (c : Choices) : Decidable (s.Adds c) :=
  inferInstanceAs (Decidable (_ ∨ _))

/-- `r < 0.80`; the literal is the double next to it. -/
def Cancels (c : Choices) : Prop := c.r < 7205759403792794

instance (c : Choices) : Decidable (Cancels c) := inferInstanceAs (Decidable (_ < _))

/-- One iteration of `generate_messages`. -/
def iteration (s : Sender) (c : Choices) : Sender × SentMessage :=
  let stock := stocks.get c.stock
  let side := if c.sell then "S" else "B"
  if s.Adds c then
    let (orderRef, s) := s.newOrderRef
    let liveOrders := s.liveOrders ++ [(orderRef, c.shares)]
    let liveOrders := if liveOrders.length > liveOrderCap then liveOrders.tail else liveOrders
    ({ s with liveOrders }, .addOrder orderRef side c.shares stock c.price)
  else
    let idx := c.position % s.liveOrders.length
    if Cancels c then
      let rotated := s.liveOrders.rotateLeft idx
      let (orderRef, origShares) := rotated.headD (0, 0)
      ({ s with liveOrders := rotated.tail.rotateRight idx }, .cancel orderRef origShares)
    else
      let (orderRef, origShares) := s.liveOrders.getD idx (0, 0)
      (s, .trade orderRef side origShares stock c.price c.matchNum)

/-- `generate_messages` for a batch of as many messages as there are choices. -/
def generateMessages (s : Sender) : List Choices → Sender × List SentMessage
  | [] => (s, [])
  | c :: cs =>
      let (s, msg) := s.iteration c
      let (s, msgs) := s.generateMessages cs
      (s, msg :: msgs)

def send (s : Sender) : List (List Choices) → Sender × List SentMessage
  | [] => (s, [])
  | batch :: batches =>
      let (s, msgs) := s.generateMessages batch
      let (s, rest) := s.send batches
      (s, msgs ++ rest)

end Sender

end UltraHft.Tools.ItchSender
