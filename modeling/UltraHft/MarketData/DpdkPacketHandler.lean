import UltraHft.Lib.Outside
import UltraHft.Lib.Reads

/-!
# The packet handler

`dpdk_packet_handler.hpp`: what it reads of a received packet, and how it drives
the port.  A pointer is the address of a byte, or `none` for the null pointer.
DPDK is the outside: the handler sees of it what its calls return.
-/

namespace UltraHft.MarketData

open UltraHft.Lib

/-- `static_cast<std::uint16_t>((hi << 8) | lo)` -/
def be16 (hi lo : UInt8) : UInt16 := (hi.toUInt16 <<< 8) ||| lo.toUInt16

def readBe16 (p : Nat) : Reads UInt16 := do
  let hi ← Reads.byte p
  let lo ← Reads.byte (p + 1)
  return be16 hi lo

namespace DpdkPacketHandler

/-- What `extract_udp_payload` does from the IPv4 header on, which it takes to
be at `offset`. -/
def extractFromIpv4 (bytes : Nat) (packetLen : UInt16) (etherType : UInt16) (offset : Nat) :
    Reads (Option (Nat × UInt16)) :=
  if etherType ≠ 0x0800 ∨ packetLen.toNat < offset + 20 then return none
  else do
    let versionIhl ← Reads.byte (bytes + offset)
    let ihl := versionIhl &&& 0x0F
    let ipHeaderLen := ihl.toNat * 4
    if versionIhl >>> 4 ≠ 4 ∨ ihl < 5 ∨ packetLen.toNat < offset + ipHeaderLen + 8 then
      return none
    else
      let protocol ← Reads.byte (bytes + (offset + 9))
      if protocol ≠ 17 then return none
      else
        let udpOffset := offset + ipHeaderLen
        let udpLen ← readBe16 (bytes + (udpOffset + 4))
        if udpLen < 8 then return none
        else
          let payloadOffset := udpOffset + 8
          let payloadLen := (udpLen - 8).toNat
          if packetLen.toNat < payloadOffset + payloadLen then return none
          else return some (bytes + payloadOffset, UInt16.ofNat payloadLen)

def extractUdpPayload (packetData : Option Nat) (packetLen : UInt16) :
    Reads (Option (Nat × UInt16)) :=
  match packetData with
  | none => return none
  | some bytes =>
      if packetLen < 14 then return none
      else do
        let etherType ← readBe16 (bytes + 12)
        -- one VLAN tag moves the EtherType and what follows it by four bytes
        if etherType = 0x8100 ∨ etherType = 0x88a8 then
          if packetLen < 18 then return none
          else
            let etherType ← readBe16 (bytes + 16)
            extractFromIpv4 bytes packetLen etherType 18
        else extractFromIpv4 bytes packetLen etherType 14

/-- `get_timestamp_ns()`, given what `rte_get_tsc_hz()` and `rte_get_tsc_cycles()`
return; a build without DPDK has neither. -/
def getTimestampNs : Option (UInt64 × UInt64) → UInt64
  | some (hz, cycles) => if hz = 0 then 0 else (cycles * 1000000000) / hz
  | none => 0

end DpdkPacketHandler

/-! ## The handler and its port

The build with DPDK. -/

/-- A packet buffer: its handle, what `rte_pktmbuf_mtod` and
`rte_pktmbuf_pkt_len` give for it, and the memory that the first refers to. -/
structure Mbuf where
  handle : Nat
  mtod : Nat
  pktLen : UInt32
  memory : Nat → UInt8

/-- The functions of DPDK that the handler calls.  A memory pool is a handle. -/
inductive DpdkCall where
  | ealInit
  | ethDevCountAvail
  | ethDevIsValidPort (portId : UInt16)
  | socketId
  | pktmbufPoolCreate (name : String) (n cacheSize : UInt32) (privSize : UInt16) (socketId : Int)
  | ethDevConfigure (portId nbRxQueue nbTxQueue : UInt16)
  | ethDevSocketId (portId : UInt16)
  | ethRxQueueSetup (portId rxQueueId nbRxDesc : UInt16) (socketId : Int) (pool : Nat)
  | ethTxQueueSetup (portId txQueueId nbTxDesc : UInt16) (socketId : Int)
  | ethDevStart (portId : UInt16)
  | ethPromiscuousEnable (portId : UInt16)
  | getTscHz
  | getTscCycles
  | ethRxBurst (portId queueId nbPkts : UInt16)
  | pktmbufFree (handle : Nat)
  | ethDevStop (portId : UInt16)
  | ethDevClose (portId : UInt16)
  | mempoolFree (pool : Nat)

/-- What they return.  A burst has at most as many packets as are asked for. -/
def DpdkCall.Result : DpdkCall → Type
  | ealInit => Int
  | ethDevCountAvail => UInt16
  | ethDevIsValidPort _ => Bool
  | socketId => Int
  | pktmbufPoolCreate _ _ _ _ _ => Option Nat
  | ethDevConfigure _ _ _ => Int
  | ethDevSocketId _ => Int
  | ethRxQueueSetup _ _ _ _ _ => Int
  | ethTxQueueSetup _ _ _ _ => Int
  | ethDevStart _ => Int
  | ethPromiscuousEnable _ => Int
  | getTscHz => UInt64
  | getTscCycles => UInt64
  | ethRxBurst _ _ nbPkts => { pkts : List Mbuf // pkts.length ≤ nbPkts.toNat }
  | pktmbufFree _ => Unit
  | ethDevStop _ => Int
  | ethDevClose _ => Int
  | mempoolFree _ => Unit

structure DpdkConfig where
  portId : UInt16 := 0
  queueId : UInt16 := 0
  mbufPoolSize : UInt32 := 8191
  burstSize : UInt16 := 32
  promiscMode : UInt16 := 1
  enableFlowControl : UInt16 := 1
  receiveQueueCount : UInt16 := 1
  transmitQueueCount : UInt16 := 1
  deriving Repr, DecidableEq

section Methods

open Outside

variable {U : Type} {R : U → Type} {σ : Type}

/-- Code of the user on user data of type `σ`, which makes calls of its own but
none to DPDK or to the handler.  The memory comes with the pointer. -/
abbrev PacketProcessCallback (U : Type) (R : U → Type) (σ : Type) : Type :=
  (memory : Nat → UInt8) → (packetData : Nat) → (packetLength : UInt16) →
    (timestampNs : UInt64) → (userContext : Option Nat) → σ → Prog U R σ

structure DpdkPacketHandler (U : Type) (R : U → Type) (σ : Type) where
  config_ : DpdkConfig
  callbacks_ : List (PacketProcessCallback U R σ)
  packetsReceived_ : UInt64
  packetsProcessed_ : UInt64
  packetsDropped_ : UInt64
  tscHz_ : UInt64
  mbufPool_ : Option Nat
  initialized_ : Bool

/-- A program that calls DPDK, and the outside of the user. -/
abbrev DpdkProg (U : Type) (R : U → Type) (α : Type) : Type :=
  Prog (DpdkCall ⊕ U) (Sum.elim DpdkCall.Result R) α

def dpdk (c : DpdkCall) : DpdkProg U R c.Result :=
  Prog.call (.inl c) Prog.ret

namespace DpdkPacketHandler

def new (config : DpdkConfig) : DpdkPacketHandler U R σ where
  config_ := config
  callbacks_ := []
  packetsReceived_ := 0
  packetsProcessed_ := 0
  packetsDropped_ := 0
  tscHz_ := 0
  mbufPool_ := none
  initialized_ := false

def poolName (config : DpdkConfig) : String :=
  "UHFT_MBUF_POOL_" ++ toString config.portId.toNat ++ "_" ++ toString config.queueId.toNat

/-- The loop over the receive queues: the rounds left and `q`. -/
def setupRxQueues (config : DpdkConfig) (pool : Nat) : Nat → UInt16 → DpdkProg U R Bool
  | 0, _ => return true
  | rounds + 1, q => do
      let socket : Int ← dpdk (.ethDevSocketId config.portId)
      let ret : Int ← dpdk (.ethRxQueueSetup config.portId q 1024 socket pool)
      if ret < 0 then return false
      else setupRxQueues config pool rounds (q + 1)

def setupTxQueues (config : DpdkConfig) : Nat → UInt16 → DpdkProg U R Bool
  | 0, _ => return true
  | rounds + 1, q => do
      let socket : Int ← dpdk (.ethDevSocketId config.portId)
      let ret : Int ← dpdk (.ethTxQueueSetup config.portId q 1024 socket)
      if ret < 0 then return false
      else setupTxQueues config rounds (q + 1)

/-- `init` from the configuration of the port on. -/
def configurePort (h : DpdkPacketHandler U R σ) (pool : Nat) :
    DpdkProg U R (Bool × DpdkPacketHandler U R σ) := do
  let ret : Int ← dpdk (.ethDevConfigure h.config_.portId h.config_.receiveQueueCount
    h.config_.transmitQueueCount)
  if ret < 0 then return (false, h)
  else
    let ok ← setupRxQueues h.config_ pool h.config_.receiveQueueCount.toNat 0
    if !ok then return (false, h)
    else
      let ok ← setupTxQueues h.config_ h.config_.transmitQueueCount.toNat 0
      if !ok then return (false, h)
      else
        let ret : Int ← dpdk (.ethDevStart h.config_.portId)
        if ret < 0 then return (false, h)
        else
          if h.config_.promiscMode ≠ 0 then
            let _ ← dpdk (.ethPromiscuousEnable h.config_.portId)
          let hz : UInt64 ← dpdk .getTscHz
          return (true, { h with tscHz_ := hz, initialized_ := true })

def init (h : DpdkPacketHandler U R σ) : DpdkProg U R (Bool × DpdkPacketHandler U R σ) :=
  if h.initialized_ then return (true, h)
  else do
    let ealRet : Int ← dpdk .ealInit
    if ealRet < 0 then return (false, h)
    else
      let avail : UInt16 ← dpdk .ethDevCountAvail
      if avail = 0 then return (false, h)
      else
        let valid : Bool ← dpdk (.ethDevIsValidPort h.config_.portId)
        if !valid then return (false, h)
        else
          let socket : Int ← dpdk .socketId
          let pool : Option Nat ← dpdk (.pktmbufPoolCreate (poolName h.config_)
            h.config_.mbufPoolSize 256 0 socket)
          let h := { h with mbufPool_ := pool }
          match pool with
          | none => return (false, h)
          | some pool => h.configurePort pool

/-- `get_timestamp_ns()` with its calls. -/
def timestampNs : DpdkProg U R UInt64 := do
  let hz : UInt64 ← dpdk .getTscHz
  if hz = 0 then return 0
  else
    let cycles : UInt64 ← dpdk .getTscCycles
    return getTimestampNs (some (hz, cycles))

def registerCallback (h : DpdkPacketHandler U R σ) (callback : PacketProcessCallback U R σ) :
    DpdkPacketHandler U R σ :=
  { h with callbacks_ := h.callbacks_ ++ [callback] }

end DpdkPacketHandler

end Methods

end UltraHft.MarketData
