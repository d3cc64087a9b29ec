import UltraHft.MarketData.Proofs.DpdkPacketHandler.Headers

/-!
# The datagram that the IPv4 header announces

`extract_udp_payload` takes the size of the payload from the UDP header and holds
it against the received packet.  It reads neither the total length nor the
fragment offset of the IPv4 header.
-/

namespace UltraHft.MarketData.DpdkPacketHandler

open UltraHft.Lib UltraHft.Lib.Reads

variable {mem mem' byte byte' : Nat → UInt8} {packet len off p : Nat} {packetLen n : UInt16}

def totalLength (byte : Nat → UInt8) : Nat := (be16At byte (ipv4Offset byte + 2)).toNat

/-- The lower thirteen bits of the field behind the identification. -/
def fragmentOffset (byte : Nat → UInt8) : UInt16 := be16At byte (ipv4Offset byte + 6) &&& 0x1FFF

/-- The payload, at an offset of the packet, lies within the announced datagram. -/
def WithinDatagram (byte : Nat → UInt8) (payloadOffset payloadLen : Nat) : Prop :=
  payloadOffset + payloadLen ≤ ipv4Offset byte + totalLength byte

/-- The packets differ at most in the total length and in the field of the
fragment offset. -/
def AgreesOutside (byte byte' : Nat → UInt8) : Prop :=
  ∀ i, i ∉ [ipv4Offset byte + 2, ipv4Offset byte + 3, ipv4Offset byte + 6, ipv4Offset byte + 7] →
    byte' i = byte i

theorem AgreesOutside.eq (h : AgreesOutside byte byte') {i : Nat}
    (hi : i < ipv4Offset byte + 2 ∨ ipv4Offset byte + 8 ≤ i) : byte' i = byte i := by
  apply h
  simp only [List.mem_cons, List.not_mem_nil, or_false, not_or]
  omega

theorem AgreesOutside.be16At_eq (h : AgreesOutside byte byte') {i : Nat}
    (hi : i < ipv4Offset byte + 1 ∨ ipv4Offset byte + 8 ≤ i) : be16At byte' i = be16At byte i := by
  unfold be16At
  rw [h.eq (by omega), h.eq (by omega)]

theorem AgreesOutside.ipv4Offset_eq (h : AgreesOutside byte byte') :
    ipv4Offset byte' = ipv4Offset byte := by
  have hoff := le_ipv4Offset byte
  have htype : be16At byte' 12 = be16At byte 12 := h.be16At_eq (by omega)
  unfold ipv4Offset
  rw [htype]

theorem AgreesOutside.udpOffset_eq (h : AgreesOutside byte byte') :
    udpOffset byte' = udpOffset byte := by
  unfold udpOffset
  rw [h.ipv4Offset_eq, h.eq (by omega)]

theorem AgreesOutside.accepts (h : AgreesOutside byte byte') (haccepts : Accepts byte len) :
    Accepts byte' len ∧ udpLen byte' = udpLen byte := by
  have hoff := le_ipv4Offset byte
  have hihl := haccepts.ihl
  have hhead : byte' (ipv4Offset byte) = byte (ipv4Offset byte) := h.eq (by omega)
  have hudp : be16At byte' (ipv4Offset byte + headerLen (byte (ipv4Offset byte)) + 4) =
      be16At byte (ipv4Offset byte + headerLen (byte (ipv4Offset byte)) + 4) :=
    h.be16At_eq (by omega)
  constructor
  · rw [accepts_iff h.ipv4Offset_eq]
    constructor
    · rw [h.be16At_eq (by omega)]
      exact haccepts.etherType
    · constructor
      · rw [hhead]
        exact haccepts.version
      · rw [hhead]
        exact hihl
      · rw [h.eq (by omega)]
        exact haccepts.protocol
      · rw [hhead, hudp]
        exact haccepts.eight_le
      · rw [hhead, hudp]
        exact haccepts.fits
  · unfold udpLen
    rw [h.udpOffset_eq]
    exact congrArg UInt16.toNat hudp

/-- **The payload lies in the received packet, behind the headers and as long as
the UDP header says; it lies in the announced datagram exactly if the headers and
that length do, and what the IPv4 header says of this is not looked at.** -/
theorem extractUdpPayload_sized_by_udp
    (h : eval mem (extractUdpPayload (some packet) packetLen) = some (some (p, n))) :
    p = packet + (udpOffset (fun i => mem (packet + i)) + 8) ∧
      n.toNat + 8 = udpLen (fun i => mem (packet + i)) ∧
      p + n.toNat ≤ packet + packetLen.toNat ∧
      (WithinDatagram (fun i => mem (packet + i)) (p - packet) n.toNat ↔
        headerLen (mem (packet + ipv4Offset fun i => mem (packet + i))) +
          udpLen (fun i => mem (packet + i)) ≤ totalLength fun i => mem (packet + i)) ∧
      ∀ mem', AgreesOutside (fun i => mem (packet + i)) (fun i => mem' (packet + i)) →
        eval mem' (extractUdpPayload (some packet) packetLen) = some (some (p, n)) := by
  obtain ⟨haccepts, rfl, hn⟩ := extractUdpPayload_eq_some.mp h
  have hfits := haccepts.fits'
  refine ⟨rfl, hn, by omega, ?_, ?_⟩
  · unfold WithinDatagram
    have hudp : udpOffset (fun i => mem (packet + i)) =
      (ipv4Offset fun i => mem (packet + i)) +
        headerLen (mem (packet + ipv4Offset fun i => mem (packet + i))) := rfl
    omega
  · intro mem' hagrees
    obtain ⟨haccepts', hlen⟩ := hagrees.accepts haccepts
    apply extractUdpPayload_eq_some.mpr
    rw [hagrees.udpOffset_eq, hlen]
    exact ⟨haccepts', rfl, hn⟩

/-- A frame with one byte of payload, in a later fragment of a datagram that ends
with the IPv4 header. -/
def lateFragment : List UInt8 :=
  [0, 0, 0, 0, 0, 1, 0, 0, 0, 0, 0, 2, 0x08, 0x00,
    0x45, 0, 0, 20, 0, 0, 0, 1, 64, 17, 0, 0, 10, 0, 0, 1, 10, 0, 0, 2,
    0, 80, 0x30, 0x0C, 0, 9, 0, 0, 0x58]

theorem lateFragment_extracted :
    eval (memoryOf lateFragment) (extractUdpPayload (some 0) 43) = some (some (42, 1)) := by
  decide

theorem extractUdpPayload_sized_by_udp_lateFragment :
    42 + (1 : UInt16).toNat ≤ 0 + (43 : UInt16).toNat ∧
      ∀ mem', AgreesOutside (fun i => memoryOf lateFragment (0 + i)) (fun i => mem' (0 + i)) →
        eval mem' (extractUdpPayload (some 0) 43) = some (some (42, 1)) := by
  obtain ⟨-, -, hle, -, hagrees⟩ := extractUdpPayload_sized_by_udp lateFragment_extracted
  exact ⟨hle, hagrees⟩

theorem lateFragment_outsideDatagram :
    eval (memoryOf lateFragment) (extractUdpPayload (some 0) 43) = some (some (42, 1)) ∧
      fragmentOffset (memoryOf lateFragment) ≠ 0 ∧
      ¬ WithinDatagram (memoryOf lateFragment) 42 1 := by
  refine ⟨lateFragment_extracted, by decide, ?_⟩
  unfold WithinDatagram
  decide

end UltraHft.MarketData.DpdkPacketHandler
