import UltraHft.Lib.Bytes

/-!
# The fallback receiver

`udp_receiver.py`.  `none` is the `struct.error` that `struct.unpack_from`
raises when it would read past the end.
-/

namespace UltraHft.Tools.UdpReceiver

open UltraHft.Lib

/-- `struct.unpack_from('>H', data, off)[0]` -/
def readBe16 (data : List UInt8) (off : Nat) : Option Nat :=
  if data.length < off + 2 then none else some (Bytes.ofBE ((data.drop off).take 2))

/-- `struct.unpack_from('>I', data, off)[0]` -/
def readBe32 (data : List UInt8) (off : Nat) : Option Nat :=
  if data.length < off + 4 then none else some (Bytes.ofBE ((data.drop off).take 4))

/-! ## MoldUDP64 framing -/

/-- The loop of `parse_moldudp64`, with the number of rounds left, `off` and
`messages`. -/
def parseBlocks (payload : List UInt8) :
    Nat → Nat → List (List UInt8) → Option (List (List UInt8))
  | 0, _, messages => some messages
  | rounds + 1, off, messages =>
      if payload.length < off + 2 then some messages
      else do
        let msgLen ← readBe16 payload off
        let off := off + 2
        if msgLen = 0 ∨ payload.length < off + msgLen then some messages
        else
          parseBlocks payload rounds (off + msgLen)
            (messages ++ [(payload.drop off).take msgLen])

def parseMoldudp64 (payload : List UInt8) : Option (List (List UInt8)) :=
  if payload.length < 20 then some []
  else do
    let msgCount ← readBe16 payload 18
    parseBlocks payload msgCount 20 []

/-! ## Text -/

/-- A UTF-8 sequence that has begun: the bytes that are missing, the range of the
next one, and the bits read so far. -/
structure Pending where
  missing : Nat
  low : UInt8
  high : UInt8
  bits : Nat

def decodeLead (b : UInt8) : List Char × Option Pending :=
  if b < 0x80 then ([Char.ofNat b.toNat], none)
  else if b < 0xC2 then (['\uFFFD'], none)
  else if b < 0xE0 then ([], some ⟨1, 0x80, 0xBF, b.toNat % 32⟩)
  else if b < 0xF0 then
    let low := if b = 0xE0 then 0xA0 else 0x80
    let high := if b = 0xED then 0x9F else 0xBF
    ([], some ⟨2, low, high, b.toNat % 16⟩)
  else if b < 0xF5 then
    let low := if b = 0xF0 then 0x90 else 0x80
    let high := if b = 0xF4 then 0x8F else 0xBF
    ([], some ⟨3, low, high, b.toNat % 8⟩)
  else (['\uFFFD'], none)

def decodeByte : Option Pending → UInt8 → List Char × Option Pending
  | none, b => decodeLead b
  | some p, b =>
      if p.low ≤ b ∧ b ≤ p.high then
        let bits := p.bits * 64 + b.toNat % 64
        if p.missing = 1 then ([Char.ofNat bits], none)
        else ([], some ⟨p.missing - 1, 0x80, 0xBF, bits⟩)
      else
        -- the sequence is given up, and `b` read again
        let (chars, pending) := decodeLead b
        ('\uFFFD' :: chars, pending)

def decodeFrom : Option Pending → List UInt8 → List Char
  | none, [] => []
  | some _, [] => ['\uFFFD']
  | pending, b :: bs =>
      let (chars, pending) := decodeByte pending b
      chars ++ decodeFrom pending bs

/-- `bytes.decode(errors='replace')` -/
def decode (bytes : List UInt8) : List Char := decodeFrom none bytes

/-- `str.isspace` of one character. -/
def isSpace (c : Char) : Bool :=
  let n := c.toNat
  (0x09 ≤ n ∧ n ≤ 0x0D) ∨ (0x1C ≤ n ∧ n ≤ 0x20) ∨ n = 0x85 ∨ n = 0xA0 ∨ n = 0x1680 ∨
    (0x2000 ≤ n ∧ n ≤ 0x200A) ∨ n = 0x2028 ∨ n = 0x2029 ∨ n = 0x202F ∨ n = 0x205F ∨ n = 0x3000

def strip (s : List Char) : List Char :=
  ((s.dropWhile isSpace).reverse.dropWhile isSpace).reverse

/-- `repr` of one byte. -/
def reprByte (b : UInt8) : String :=
  if b = 0x27 then "b\"'\""
  else
    let escaped : List Char :=
      if b = 0x5C then ['\\', '\\']
      else if b = 0x09 then ['\\', 't']
      else if b = 0x0A then ['\\', 'n']
      else if b = 0x0D then ['\\', 'r']
      else if b < 0x20 ∨ 0x7F ≤ b then
        ['\\', 'x', (b.toNat / 16).digitChar, (b.toNat % 16).digitChar]
      else [Char.ofNat b.toNat]
    "b'" ++ String.ofList escaped ++ "'"

/-! ## ITCH messages -/

def msgTypes : List (Char × String) :=
  [('A', "AddOrder"), ('P', "Trade"), ('X', "Cancel"), ('D', "Delete"), ('E', "Execute"),
    ('F', "ExecuteWithPrice"), ('U', "Replace"), ('S', "SystemEvent"), ('R', "StockDirectory"),
    ('H', "TradingAction"), ('Y', "RegSHO"), ('L', "MarketParticipant"), ('V', "MWCB"),
    ('W', "MWCBStatus"), ('K', "IPO"), ('J', "LULD"), ('h', "OperationalHalt"),
    ('Q', "CrossTrade"), ('B', "BrokenTrade"), ('I', "NOII"), ('N', "RPII")]

/-- `MSG_TYPES.get(msg_type, f'Unknown({msg_type})')` -/
def typeName (msgType : UInt8) : String :=
  match msgTypes.find? fun entry => entry.1.toUInt8 = msgType with
  | some (_, name) => name
  | none => "Unknown(" ++ reprByte msgType ++ ")"

/-- The keys that `info` may have.  The price is in ten-thousandths. -/
structure Info where
  type : Option String := none
  rawType : Option (List Char) := none
  len : Option Nat := none
  side : Option (List Char) := none
  shares : Option Nat := none
  stock : Option (List Char) := none
  price : Option Nat := none
  cancelled : Option Nat := none
  deriving Repr, DecidableEq

def readOrder (info : Info) (msg : List UInt8) : Option Info := do
  let shares ← readBe32 msg 10
  let price ← readBe32 msg 22
  some { info with
    side := some [Char.ofNat (msg.getD 9 0).toNat]
    shares := some shares
    stock := some (strip (decode ((msg.drop 14).take 8)))
    price := some price }

def parseItchMessage (msg : List UInt8) : Option Info :=
  match msg with
  | [] => some {}
  | msgType :: _ =>
      let info : Info :=
        { type := some (typeName msgType)
          rawType := some (decode [msgType])
          len := some msg.length }
      if msgType = 'A'.toUInt8 ∧ 36 ≤ msg.length then readOrder info msg
      else if msgType = 'P'.toUInt8 ∧ 40 ≤ msg.length then readOrder info msg
      else if msgType = 'X'.toUInt8 ∧ 23 ≤ msg.length then do
        let cancelled ← readBe32 msg 19
        some { info with cancelled := some cancelled }
      else some info

end UltraHft.Tools.UdpReceiver
