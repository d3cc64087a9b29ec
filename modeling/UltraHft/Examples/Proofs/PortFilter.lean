import UltraHft.Examples.MarketDataPipelineDemo
import UltraHft.MarketData.Proofs.DpdkPacketHandler.Datagram

/-!
# The port that the filter looks at

`udp_dst_port` walks the headers without checking them.  Where
`extract_udp_payload` accepts a packet, both have walked to the same UDP header.
-/

namespace UltraHft.Examples.MarketDataPipelineDemo

open UltraHft.Lib UltraHft.Lib.Reads UltraHft.MarketData UltraHft.MarketData.DpdkPacketHandler

variable {C : Type} {mem : Nat → UInt8} {packet p : Nat} {packetLen n : UInt16}

/-- As far as the packet reaches, the port is read two bytes into the UDP header. -/
theorem eval_udpDstPort (h₁ : 38 ≤ packetLen.toNat)
    (h₂ : udpOffset (fun i => mem (packet + i)) + 4 ≤ packetLen.toNat) :
    eval mem (udpDstPort packet packetLen) =
      some (be16At (fun i => mem (packet + i)) (udpOffset (fun i => mem (packet + i)) + 2)) := by
  have htype : eval mem (readBe16 (packet + 12)) =
      some (be16At (fun i => mem (packet + i)) 12) := readBe16_eq mem _
  have hoff : (if be16At (fun i => mem (packet + i)) 12 = 0x8100 ∨
      be16At (fun i => mem (packet + i)) 12 = 0x88a8 then 18 else 14) =
        ipv4Offset fun i => mem (packet + i) := rfl
  have hudp : (ipv4Offset fun i => mem (packet + i)) +
      (mem (packet + ipv4Offset fun i => mem (packet + i)) &&& 0x0F).toNat * 4 =
        udpOffset fun i => mem (packet + i) := rfl
  simp only [udpDstPort, eval_ite, eval_bind, eval_byte, eval_pure, htype, Option.bind_some]
  rw [if_neg (by omega), if_pos (by omega)]
  simp only [Option.bind_some]
  rw [hoff, hudp, if_neg (by omega), readBe16_eq]
  rfl

/-- **On a packet whose payload is extracted, the filter looks at the destination
port of the UDP header in front of that payload.** -/
theorem udpDstPort_of_extracted
    (h : eval mem (extractUdpPayload (some packet) packetLen) = some (some (p, n))) :
    packet + 42 ≤ p ∧ ∃ port, eval mem (udpDstPort packet packetLen) = some port ∧
      port.toNat = Bytes.ofBE [mem (p - 6), mem (p - 5)] ∧
      ∀ (filterPort : UInt16) (handler : MarketDataHandler C),
        eval mem (onPacket filterPort handler packet packetLen) =
          if filterPort ≠ 0 ∧ port ≠ filterPort then some handler
          else eval mem
            (processItchPayload MarketDataHandler.processMessageAt handler p n.toNat) := by
  obtain ⟨haccepts, rfl, hn⟩ := extractUdpPayload_eq_some.mp h
  have hle := haccepts.toAcceptsAt.le
  have hfits := haccepts.fits'
  have hoff := le_ipv4Offset fun i => mem (packet + i)
  have hihl := haccepts.ihl
  have hudp : udpOffset (fun i => mem (packet + i)) =
    (ipv4Offset fun i => mem (packet + i)) +
      headerLen (mem (packet + ipv4Offset fun i => mem (packet + i))) := rfl
  have hport : eval mem (udpDstPort packet packetLen) = _ :=
    eval_udpDstPort (by omega) (by omega)
  refine ⟨by omega, _, hport, ?_, ?_⟩
  · rw [be16At_mem, be16_toNat]
    rfl
  · intro filterPort handler
    simp only [onPacket, eval_bind, eval_ite, eval_pure]
    by_cases hfilter : filterPort = 0
    · simp [hfilter, h]
    · simp only [ne_eq, hfilter, not_false_eq_true, if_true, true_and, hport, h,
        Option.bind_some, decide_not]
      simp

/-- A frame to port 12300 with a VLAN tag and one word of IPv4 options. -/
def taggedFrame : List UInt8 :=
  [0, 0, 0, 0, 0, 1, 0, 0, 0, 0, 0, 2, 0x81, 0x00, 0, 5, 0x08, 0x00,
    0x46, 0, 0, 34, 0, 0, 0, 0, 64, 17, 0, 0, 10, 0, 0, 1, 10, 0, 0, 2, 1, 1, 1, 0,
    0, 80, 0x30, 0x0C, 0, 10, 0, 0, 0x58, 0x44]

theorem udpDstPort_of_extracted_tagged :
    ∃ port, eval (memoryOf taggedFrame) (udpDstPort 0 52) = some port ∧
      port.toNat = Bytes.ofBE [0x30, 0x0C] := by
  have h : eval (memoryOf taggedFrame) (extractUdpPayload (some 0) 52) = some (some (50, 2)) := by
    decide
  obtain ⟨-, port, hport, hvalue, -⟩ := udpDstPort_of_extracted (C := Unit) h
  exact ⟨port, hport, hvalue⟩

end UltraHft.Examples.MarketDataPipelineDemo
