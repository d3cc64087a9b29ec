import UltraHft.Common.Proofs.LatencyHistogram.Percentile
import UltraHft.Examples.PipelineMain
import UltraHft.Examples.Proofs.Dispatch
import UltraHft.MarketData.Proofs.MarketDataHandler.Accounting
import UltraHft.MarketData.Proofs.MarketDataHandler.InPlace

/-!
# What the pipeline has seen

Everything that the pipeline should print can be computed from what it has seen:
the packets of the bursts, the readings of the clocks, and nothing else.  A
monitor does that, and accepts a line only with the numbers that it has computed.
-/

namespace UltraHft.Examples.MarketDataPipelineDemo

open UltraHft.Lib UltraHft.Lib.Outside.Prog UltraHft.Common UltraHft.MarketData UltraHft.Tools
open UltraHft.Lib.Outside (Event)
open UltraHft.Lib.Reads (eval slice)
open MarketDataHandler (subscribed feed isCounted)

def payloadOf (filterPort : UInt16) (mbuf : Mbuf) : Option (List UInt8) :=
  ((eval mbuf.memory (packetPayload filterPort mbuf.mtod mbuf.pktLen.toUInt16)).join).map
    fun p => slice mbuf.memory p.1 p.2.toNat

/-- The messages of a payload: those that the fallback receiver finds, or the
payload itself where it finds none. -/
def messagesOf (payload : List UInt8) : List (List UInt8) :=
  let msgs := (UdpReceiver.parseMoldudp64 payload).getD []
  if msgs = [] then [payload] else msgs

def handlerAfter (messages : List (List UInt8)) : Option (MarketDataHandler Unit) :=
  (subscribed 1 [()]).feed (messages.map some)

def counted (messages : List (List UInt8)) : Nat := messages.countP fun msg => isCounted (some msg)

def fired (messages : List (List UInt8)) : Nat :=
  (handlerAfter messages).elim 0 fun h => h.invoked.length

def histogram (samples : List UInt64) : LatencyHistogram :=
  samples.foldl LatencyHistogram.recordNs .new

def LatencyLine.Defined (line : LatencyLine) : Prop := ∀ v ∈ line.percentiles, v.isSome

instance (line : LatencyLine) : Decidable line.Defined :=
  inferInstanceAs (Decidable (∀ v ∈ _, _))

/-- What has been seen.  `pending` are the packets of the last burst that were not
given back and `readings` those of the TSC since the last was; `packets` and
`messages` are all those received, of which the `reported` ones are in a line;
`ended` tells what was printed last. -/
structure Observed where
  pending : List Mbuf
  readings : List UInt64
  packets : Nat
  messages : List (List UInt8)
  tscHz : UInt64
  samples : List UInt64
  window : List UInt64
  clock : Int
  lastReport : Option Int
  reportedPackets : Nat
  reportedMessages : Nat
  ended : Option Int

namespace Observed

def initial : Observed := ⟨[], [], 0, [], 0, [], [], 0, none, 0, 0, none⟩

def elapsed (m : Observed) : Int := m.clock - m.lastReport.getD m.clock

def throughput (m : Observed) : Throughput :=
  throughputLine (UInt64.ofNat (m.packets - m.reportedPackets))
    (UInt64.ofNat (counted (m.messages.drop m.reportedMessages)))
    (UInt64.ofNat (fired m.messages - fired (m.messages.take m.reportedMessages)))
    (UInt64.ofNat (fired m.messages)) (seconds m.elapsed)

/-- There is a line of latencies if there are samples, up to `2 ^ 64`. -/
def sampled (m : Observed) : Prop := (histogram m.window).total > 0

instance (m : Observed) : Decidable m.sampled := inferInstanceAs (Decidable (_ > _))

def latency (m : Observed) : Option LatencyLine :=
  if m.sampled then some (latencyLine windowPercentiles (histogram m.window)) else none

def summary (m : Observed) : Summary where
  packetsReceived := UInt64.ofNat m.packets
  packetsProcessed := UInt64.ofNat m.packets
  msgsTotal := UInt64.ofNat (counted m.messages)
  msgsParsed := UInt64.ofNat (fired m.messages)
  latency := latencyLine summaryPercentiles (histogram m.samples)

/-- A packet is given back: one that is for the demo was timed. -/
def finish (filterPort : UInt16) (m : Observed) (mbuf : Mbuf) (rest : List Mbuf) :
    Option Observed :=
  match payloadOf filterPort mbuf, m.readings with
  | none, [_] => some { m with pending := rest, readings := [] }
  | some payload, [t0, t1] =>
      let sample := if m.tscHz = 0 then [] else [LatencyHistogram.cyclesToNs (t1 - t0) m.tscHz]
      some { m with pending := rest, readings := [],
                    messages := m.messages ++ messagesOf payload,
                    samples := m.samples ++ sample, window := m.window ++ sample }
  | _, _ => none

def stepDpdk (filterPort : UInt16) (m : Observed) : (c : DpdkCall) → c.Result → Option Observed
  | .ethRxBurst _ _ _, r =>
      if m.pending.isEmpty then
        some { m with pending := r.val, packets := m.packets + r.val.length }
      else none
  | .pktmbufFree handle, _ =>
      match m.pending with
      | mbuf :: rest => if handle = mbuf.handle then m.finish filterPort mbuf rest else none
      | [] => none
  | _, _ => some m

/-- No line is overdue when the next round begins, and none comes early. -/
def stepDemo (m : Observed) : (c : DemoCall) → c.Result → Option Observed
  | .initFailed, _ => some { m with ended := some 1 }
  | .tscHz, (r : UInt64) => some { m with tscHz := r }
  | .rdtsc, (r : UInt64) =>
      if m.pending.isEmpty then none else some { m with readings := m.readings ++ [r] }
  | .running, _ => if m.elapsed < 1000000000 then some m else none
  | .now, (r : Int) =>
      if m.pending.isEmpty then some { m with clock := r, lastReport := m.lastReport.or (some r) }
      else none
  | .report throughput latency, _ =>
      if m.pending.isEmpty ∧ 1000000000 ≤ m.elapsed ∧ throughput = m.throughput ∧
          latency = m.latency ∧ ∀ line ∈ latency, line.Defined then
        some { m with window := if m.sampled then [] else m.window, lastReport := some m.clock,
                      reportedPackets := m.packets, reportedMessages := m.messages.length }
      else none
  | .summary s, _ =>
      if m.pending.isEmpty ∧ s = m.summary ∧ s.latency.Defined then
        some { m with ended := some 0 }
      else none

def step (filterPort : UInt16) (m : Observed) :
    Event (DpdkCall ⊕ DemoCall) (Sum.elim DpdkCall.Result DemoCall.Result) → Option Observed
  | ⟨.inl c, r⟩ => m.stepDpdk filterPort c r
  | ⟨.inr c, r⟩ => m.stepDemo c r

end Observed

/-! ## The lines -/

section Lines

end Lines

/-! ## What the handler has counted -/

section Counts

variable {h h' : MarketDataHandler Unit} {messages : List (List UInt8)}

end Counts

/-! ## One packet -/

section Packets

variable {filterPort : UInt16} {tscHz : UInt64} {demo demo' : Demo} {m : Observed} {mbuf : Mbuf}
  {rest : List Mbuf} {payload len : Nat} {mem : Nat → UInt8}

structure Logs (tscHz : UInt64) (demo : Demo) (m : Observed) : Prop where
  tscHz_eq : m.tscHz = tscHz
  readings : m.readings = []
  handler : handlerAfter m.messages = some demo.mdHandler
  window : demo.latWindow = histogram m.window
  total : demo.latTotal = histogram m.samples

structure Extends (m m' : Observed) : Prop where
  packets : m.packets ≤ m'.packets
  messages : m.messages <+: m'.messages
  clock : m'.clock = m.clock
  lastReport : m'.lastReport = m.lastReport
  reportedPackets : m'.reportedPackets = m.reportedPackets
  reportedMessages : m'.reportedMessages = m.reportedMessages

theorem Extends.refl (m : Observed) : Extends m m :=
  ⟨Nat.le_refl _, List.prefix_rfl, rfl, rfl, rfl, rfl⟩

theorem Extends.trans {m₁ m₂ m₃ : Observed} (h : Extends m₁ m₂) (h' : Extends m₂ m₃) :
    Extends m₁ m₃ where
  packets := h.packets.trans h'.packets
  messages := h.messages.trans h'.messages
  clock := h'.clock.trans h.clock
  lastReport := h'.lastReport.trans h.lastReport
  reportedPackets := h'.reportedPackets.trans h.reportedPackets
  reportedMessages := h'.reportedMessages.trans h.reportedMessages

end Packets

end UltraHft.Examples.MarketDataPipelineDemo
