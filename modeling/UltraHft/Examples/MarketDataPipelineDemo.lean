import UltraHft.MarketData.DpdkPacketHandler
import UltraHft.MarketData.MessageReads

/-!
# The market data pipeline

`market_data_pipeline_demo.cpp`: from a received packet to the handler.  What
`process_itch_payload` does with the handler is only to call `process_message`,
which is an argument here.
-/

namespace UltraHft.Examples.MarketDataPipelineDemo

open UltraHft.Lib UltraHft.MarketData

/-- The destination port of the UDP header, as far as the packet reaches. -/
def udpDstPort (packetData : Nat) (packetLen : UInt16) : Reads UInt16 :=
  if packetLen.toNat < 14 + 20 + 4 then return 0
  else do
    let skipped : Reads Nat :=
      if 18 ≤ packetLen.toNat then do
        let et ← readBe16 (packetData + 12)
        return if et = 0x8100 ∨ et = 0x88a8 then 18 else 14
      else return 14
    let off ← skipped
    let versionIhl ← Reads.byte (packetData + off)
    let ihl := versionIhl &&& 0x0F
    let udpOff := off + ihl.toNat * 4
    if packetLen.toNat < udpOff + 4 then return 0
    else readBe16 (packetData + (udpOff + 2))

section Payload

variable {σ : Type} (process : σ → Option Nat → Nat → Reads (Bool × σ))

/-- The loop of `process_itch_payload`, with the number of rounds left, the
handler, `off` and `parsed_any`. -/
def processBlocks (payload len : Nat) : Nat → σ → Nat → Bool → Reads (σ × Bool)
  | 0, handler, _, parsedAny => return (handler, parsedAny)
  | rounds + 1, handler, off, parsedAny =>
      if len < off + 2 then return (handler, parsedAny)
      else do
        let blockLen ← readBe16 (payload + off)
        let off := off + 2
        if blockLen = 0 ∨ len < off + blockLen.toNat then return (handler, parsedAny)
        else
          let (_, handler) ← process handler (some (payload + off)) blockLen.toNat
          processBlocks payload len rounds handler (off + blockLen.toNat) true

def processItchPayload (handler : σ) (payload len : Nat) : Reads σ := do
  let framed : Reads (σ × Bool) :=
    if 20 ≤ len then do
      let msgCount ← readBe16 (payload + 18)
      processBlocks process payload len msgCount.toNat handler 20 false
    else return (handler, false)
  let (handler, parsedAny) ← framed
  if parsedAny then return handler
  else
    let (_, handler) ← process handler (some payload) len
    return handler

end Payload

/-- The packet callback, without its clocks. -/
def onPacket {C : Type} (filterPort : UInt16) (handler : MarketDataHandler C) (pkt : Nat)
    (pktLen : UInt16) : Reads (MarketDataHandler C) := do
  let filtered : Reads Bool :=
    if filterPort ≠ 0 then do
      let port ← udpDstPort pkt pktLen
      return port ≠ filterPort
    else return false
  let other ← filtered
  if other then return handler
  else
    let udp ← DpdkPacketHandler.extractUdpPayload (some pkt) pktLen
    match udp with
    | none => return handler
    | some (payload, len) =>
        processItchPayload MarketDataHandler.processMessageAt handler payload len.toNat

end UltraHft.Examples.MarketDataPipelineDemo
