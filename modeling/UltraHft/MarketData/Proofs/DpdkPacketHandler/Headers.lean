import UltraHft.MarketData.DpdkPacketHandler
import UltraHft.Lib.Bytes

/-!
# The headers in front of a payload

Where `extract_udp_payload` looks for the three headers, and what it asks of
their fields.  A packet is here the function from an offset to the byte there.
-/

namespace UltraHft.MarketData

open UltraHft.Lib UltraHft.Lib.Reads

theorem be16_toNat (hi lo : UInt8) : (be16 hi lo).toNat = Bytes.ofBE [hi, lo] := by
  have hhi := hi.toNat_lt
  have hlo := lo.toNat_lt
  have hshift : hi.toNat <<< 8 < 2 ^ 16 := by
    rw [Nat.shiftLeft_eq]
    omega
  have hvalue : (be16 hi lo).toNat = hi.toNat <<< 8 % 2 ^ 16 ||| lo.toNat := by
    simp [be16]
  have hbytes : Bytes.ofBE [hi, lo] = lo.toNat + 256 * hi.toNat := by
    simp [Bytes.ofBE]
  rw [hvalue, hbytes, Nat.mod_eq_of_lt hshift, ← Nat.shiftLeft_add_eq_or_of_lt hlo,
    Nat.shiftLeft_eq]
  omega

theorem be16_inj {a b c d : UInt8} : be16 a b = be16 c d ↔ a = c ∧ b = d := by
  have hb := b.toNat_lt
  have hd := d.toNat_lt
  rw [← UInt16.toNat_inj, be16_toNat, be16_toNat, ← UInt8.toNat_inj, ← UInt8.toNat_inj]
  simp only [Bytes.ofBE, List.reverse_cons, List.reverse_nil, List.nil_append, List.cons_append,
    Bytes.ofLE_cons, Bytes.ofLE_nil]
  omega

@[simp] theorem readBe16_eq (mem : Nat → UInt8) (p : Nat) :
    eval mem (readBe16 p) = some (be16 (mem p) (mem (p + 1))) := by
  simp [readBe16]

namespace DpdkPacketHandler

variable {mem : Nat → UInt8} {packet off : Nat} {packetLen etherType n : UInt16}
  {byte : Nat → UInt8} {len p : Nat}

def be16At (byte : Nat → UInt8) (i : Nat) : UInt16 := be16 (byte i) (byte (i + 1))

theorem be16At_mem (mem : Nat → UInt8) (packet i : Nat) :
    be16At (fun i => mem (packet + i)) i = be16 (mem (packet + i)) (mem (packet + i + 1)) := rfl

def IsTagType (etherType : UInt16) : Prop := etherType = 0x8100 ∨ etherType = 0x88a8

instance (etherType : UInt16) : Decidable (IsTagType etherType) :=
  inferInstanceAs (Decidable (_ ∨ _))

def ipv4Offset (byte : Nat → UInt8) : Nat := if IsTagType (be16At byte 12) then 18 else 14

def headerLen (versionIhl : UInt8) : Nat := (versionIhl &&& 0x0F).toNat * 4

def udpOffset (byte : Nat → UInt8) : Nat :=
  ipv4Offset byte + headerLen (byte (ipv4Offset byte))

def udpLen (byte : Nat → UInt8) : Nat := (be16At byte (udpOffset byte + 4)).toNat

/-- What is asked of the fields behind the EtherType of the IPv4 header at `off`. -/
structure AcceptsAt (byte : Nat → UInt8) (len off : Nat) : Prop where
  version : byte off >>> 4 = 4
  ihl : 20 ≤ headerLen (byte off)
  protocol : byte (off + 9) = 17
  eight_le : 8 ≤ (be16At byte (off + headerLen (byte off) + 4)).toNat
  fits : off + headerLen (byte off) + (be16At byte (off + headerLen (byte off) + 4)).toNat ≤ len

structure Accepts (byte : Nat → UInt8) (len : Nat) : Prop
    extends AcceptsAt byte len (ipv4Offset byte) where
  etherType : be16At byte (ipv4Offset byte - 2) = 0x0800

theorem headerLen_le (b : UInt8) : headerLen b ≤ 60 := by
  have hihl : (b &&& 0x0F).toNat ≤ 15 := by
    rw [UInt8.toNat_and]
    exact Nat.and_le_right
  unfold headerLen
  omega

theorem le_ipv4Offset (byte : Nat → UInt8) : 14 ≤ ipv4Offset byte := by
  unfold ipv4Offset
  split <;> omega

theorem Accepts.fits' (h : Accepts byte len) : udpOffset byte + udpLen byte ≤ len := h.fits

theorem toNat_sub_eight {u : UInt16} (h : 8 ≤ u.toNat) : (u - 8).toNat = u.toNat - 8 :=
  UInt16.toNat_sub_of_le u 8 (UInt16.le_iff_toNat_le.mpr h)

theorem ofNat_sub_eight {u : UInt16} (h : 8 ≤ u.toNat) :
    n = UInt16.ofNat (u - 8).toNat ↔ n.toNat + 8 = u.toNat := by
  rw [UInt16.ofNat_toNat, ← UInt16.toNat_inj, toNat_sub_eight h]
  omega

theorem ite_reject_eq {α : Type} {c : Prop} [Decidable c] {o : Option (Option α)} {r : α} :
    (if c then some none else o) = some (some r) ↔ ¬ c ∧ o = some (some r) := by
  split
  · rename_i hc
    simp [hc]
  · rename_i hc
    simp [hc]

theorem extractFromIpv4_eq_some :
    eval mem (extractFromIpv4 packet packetLen etherType off) = some (some (p, n)) ↔
      (etherType = 0x0800 ∧ AcceptsAt (fun i => mem (packet + i)) packetLen.toNat off) ∧
        p = packet + (off + headerLen (mem (packet + off)) + 8) ∧
        n.toNat + 8 =
          (be16At (fun i => mem (packet + i)) (off + headerLen (mem (packet + off)) + 4)).toNat := by
  have hihl : mem (packet + off) &&& 0x0F < 5 ↔ headerLen (mem (packet + off)) < 20 := by
    rw [UInt8.lt_iff_toNat_lt]
    change _ < 5 ↔ _
    unfold headerLen
    omega
  have hlen : (mem (packet + off) &&& 0x0F).toNat * 4 = headerLen (mem (packet + off)) := rfl
  have hread : eval mem (readBe16 (packet + (off + headerLen (mem (packet + off)) + 4))) =
      some (be16At (fun i => mem (packet + i)) (off + headerLen (mem (packet + off)) + 4)) :=
    readBe16_eq mem _
  simp only [extractFromIpv4, eval_ite, eval_bind, eval_byte, eval_pure, Option.bind_some,
    hlen, hread, hihl, ite_reject_eq, UInt16.lt_iff_toNat_lt, Option.some.injEq, Prod.mk.injEq,
    not_or, not_ne_iff, Nat.not_lt]
  change (_ ∧ _ ∧ _ ∧ 8 ≤ _ ∧ _) ↔ _
  constructor
  · rintro ⟨⟨htype, -⟩, ⟨hversion, hihl, -⟩, hprotocol, hshort, hfits, hp, hn⟩
    rw [toNat_sub_eight hshort] at hfits
    refine ⟨⟨htype, hversion, hihl, hprotocol, hshort, ?_⟩, hp.symm, ?_⟩
    · omega
    · exact (ofNat_sub_eight hshort).mp hn.symm
  · rintro ⟨⟨htype, hversion, hihl, hprotocol, hshort, hfits⟩, hp, hn⟩
    have hfits : off + headerLen (mem (packet + off)) +
        (be16At (fun i => mem (packet + i)) (off + headerLen (mem (packet + off)) + 4)).toNat ≤
          packetLen.toNat := hfits
    have hihl : 20 ≤ headerLen (mem (packet + off)) := hihl
    refine ⟨⟨htype, by omega⟩, ⟨hversion, hihl, by omega⟩, hprotocol, hshort, ?_, hp.symm, ?_⟩
    · rw [toNat_sub_eight hshort]
      omega
    · exact ((ofNat_sub_eight hshort).mpr hn).symm

theorem accepts_iff (hoff : ipv4Offset byte = off) :
    Accepts byte len ↔ be16At byte (off - 2) = 0x0800 ∧ AcceptsAt byte len off := by
  subst hoff
  exact ⟨fun h => ⟨h.etherType, h.toAcceptsAt⟩, fun h => ⟨h.2, h.1⟩⟩

theorem AcceptsAt.le (h : AcceptsAt byte len off) : off + 28 ≤ len := by
  have hihl := h.ihl
  have hlen := h.eight_le
  have hfits := h.fits
  omega

/-- **A payload is returned exactly for the headers that are accepted, and it is
what the UDP header announces behind itself.** -/
theorem extractUdpPayload_eq_some :
    eval mem (extractUdpPayload (some packet) packetLen) = some (some (p, n)) ↔
      Accepts (fun i => mem (packet + i)) packetLen.toNat ∧
        p = packet + (udpOffset (fun i => mem (packet + i)) + 8) ∧
        n.toNat + 8 = udpLen (fun i => mem (packet + i)) := by
  have htype (i : Nat) :
      eval mem (readBe16 (packet + i)) = some (be16At (fun i => mem (packet + i)) i) :=
    readBe16_eq mem _
  simp only [extractUdpPayload, eval_ite, eval_bind, eval_pure, Option.bind_some, htype,
    ite_reject_eq, UInt16.lt_iff_toNat_lt]
  change (¬ _ < 14 ∧ (if IsTagType _ then if _ < 18 then _ else _ else _) = _) ↔ _
  by_cases htag : IsTagType (be16At (fun i => mem (packet + i)) 12)
  · have hoff : ipv4Offset (fun i => mem (packet + i)) = 18 := if_pos htag
    rw [if_pos htag, ite_reject_eq, extractFromIpv4_eq_some, accepts_iff hoff]
    unfold udpLen udpOffset
    rw [hoff]
    constructor
    · rintro ⟨-, -, h⟩
      exact h
    · intro h
      have hle := h.1.2.le
      exact ⟨by omega, by omega, h⟩
  · have hoff : ipv4Offset (fun i => mem (packet + i)) = 14 := if_neg htag
    rw [if_neg htag, extractFromIpv4_eq_some, accepts_iff hoff]
    unfold udpLen udpOffset
    rw [hoff]
    constructor
    · rintro ⟨-, h⟩
      exact h
    · intro h
      have hle := h.1.2.le
      exact ⟨by omega, h⟩

theorem extractUdpPayload_returns (mem : Nat → UInt8) (packet : Nat) (packetLen : UInt16) :
    ∃ result, eval mem (extractUdpPayload (some packet) packetLen) = some result := by
  simp only [extractUdpPayload, extractFromIpv4, eval_ite, eval_bind, eval_byte, readBe16_eq,
    eval_pure, Option.bind_some]
  split_ifs <;> exact ⟨_, rfl⟩

end DpdkPacketHandler

end UltraHft.MarketData
