import UltraHft.Common.LatencyHistogram
import UltraHft.Examples.MarketDataPipelineDemo

/-!
# The main loop of the market data pipeline

`main` of `market_data_pipeline_demo.cpp`, with the port to filter as an argument.
Besides DPDK it asks the clocks and the signal flag, and it prints: what is kept
of a line are the numbers that go into it.  What the registered event callback
prints is left out.
-/

namespace UltraHft.Examples.MarketDataPipelineDemo

open UltraHft.Lib UltraHft.Lib.Outside UltraHft.Common UltraHft.MarketData

/-- `[throughput]`; a number is `none` where its conversion is not defined. -/
structure Throughput where
  pktRate : Option UInt64
  recvRate : Option UInt64
  parseRate : Option UInt64
  parsePct : Option Int
  totalParsed : UInt64
  deriving Repr, DecidableEq

/-- The line for the differences since the last one, `secs` ago. -/
def throughputLine (dPkts dTotal dParsed totalParsed : UInt64) (secs : Binary64) :
    Throughput where
  pktRate := ((dPkts.toNat : Binary64) / secs).toUInt64
  recvRate := ((dTotal.toNat : Binary64) / secs).toUInt64
  parseRate := ((dParsed.toNat : Binary64) / secs).toUInt64
  parsePct :=
    (if dTotal > 0 then 100.0 * (dParsed.toNat : Binary64) / (dTotal.toNat : Binary64)
      else 0.0).toInt32
  totalParsed := totalParsed

/-- The nanoseconds `elapsed` as a `duration<double>`. -/
def seconds (elapsed : Int) : Binary64 := (elapsed : Binary64) / 1000000000

structure LatencyLine where
  samples : UInt64
  min : UInt64
  mean : UInt64
  percentiles : List (Option UInt64)
  max : UInt64
  deriving Repr, DecidableEq

def latencyLine (percentiles : List Binary64) (h : LatencyHistogram) : LatencyLine where
  samples := h.total
  min := h.minNs
  mean := h.meanNs
  percentiles := percentiles.map h.percentile
  max := h.maxNs

def windowPercentiles : List Binary64 := [50, 95, 99, 99.9]

def summaryPercentiles : List Binary64 := [50, 75, 90, 95, 99, 99.9, 99.99]

structure Summary where
  packetsReceived : UInt64
  packetsProcessed : UInt64
  msgsTotal : UInt64
  msgsParsed : UInt64
  latency : LatencyLine
  deriving Repr, DecidableEq

/-- `tscHz` is the call that `main` itself makes; a report has a line of latencies
if there are samples. -/
inductive DemoCall where
  | initFailed
  | tscHz
  | rdtsc
  | running
  | now
  | report (throughput : Throughput) (latency : Option LatencyLine)
  | summary (s : Summary)

/-- The time is in nanoseconds. -/
def DemoCall.Result : DemoCall → Type
  | initFailed => Unit
  | tscHz => UInt64
  | rdtsc => UInt64
  | running => Bool
  | now => Int
  | report _ _ => Unit
  | summary _ => Unit

/-- What the packet callback captures. -/
structure Demo where
  mdHandler : MarketDataHandler Unit
  latWindow : LatencyHistogram
  latTotal : LatencyHistogram

/-- The payload that the callback goes on with, unless it returns early. -/
def packetPayload (filterPort : UInt16) (pkt : Nat) (pktLen : UInt16) :
    Reads (Option (Nat × UInt16)) := do
  let filtered : Reads Bool :=
    if filterPort ≠ 0 then do
      let port ← udpDstPort pkt pktLen
      return port ≠ filterPort
    else return false
  let other ← filtered
  if other then return none
  else DpdkPacketHandler.extractUdpPayload (some pkt) pktLen

structure Pipeline where
  packetHandler : DpdkPacketHandler DemoCall DemoCall.Result Demo
  demo : Demo
  lastReport : Int
  lastParsed : UInt64
  lastTotal : UInt64
  lastPkts : UInt64

/-- A call of `main` that is not to DPDK. -/
def demoCall (c : DemoCall) : DpdkProg DemoCall DemoCall.Result c.Result :=
  Prog.call (.inr c) Prog.ret

/-- What is printed once per second. -/
def report (m : Pipeline) (now : Int) : DpdkProg DemoCall DemoCall.Result Pipeline := do
  let curParsed := m.demo.mdHandler.messagesProcessed_
  let curTotal := m.demo.mdHandler.totalMessages_
  let curPkts := m.packetHandler.packetsReceived_
  let sampled := m.demo.latWindow.total > 0
  let _ ← demoCall (.report
    (throughputLine (curPkts - m.lastPkts) (curTotal - m.lastTotal) (curParsed - m.lastParsed)
      curParsed (seconds (now - m.lastReport)))
    (if sampled then some (latencyLine windowPercentiles m.demo.latWindow) else none))
  let latWindow := if sampled then LatencyHistogram.reset else m.demo.latWindow
  return { m with demo := { m.demo with latWindow := latWindow }, lastReport := now,
                  lastParsed := curParsed, lastTotal := curTotal, lastPkts := curPkts }

end UltraHft.Examples.MarketDataPipelineDemo
