import UltraHft.MarketData.Proofs.DpdkPacketHandler.Headers

/-!
# Ethernet frames that carry a UDP payload

The grammar of the frames that `extract_udp_payload` accepts, part by part: an
Ethernet header with at most one VLAN tag, an IPv4 header, a UDP header, the
payload, and whatever pads the frame behind it.
-/

namespace UltraHft.MarketData

open UltraHft.Lib UltraHft.Lib.Reads

/-- What stands between the addresses and the EtherType: nothing, or the type of
a VLAN tag and its control information. -/
inductive VlanTag where
  | untagged
  | customer (hi lo : UInt8)
  | service (hi lo : UInt8)
  deriving DecidableEq, Repr

def VlanTag.bytes : VlanTag → List UInt8
  | untagged => []
  | customer hi lo => [0x81, 0x00, hi, lo]
  | service hi lo => [0x88, 0xa8, hi, lo]

/-- `ihl` is the length of the IPv4 header in words of four bytes. -/
structure FrameParts where
  addresses : List UInt8
  tag : VlanTag
  ihl : Nat
  ipv4 : List UInt8
  udp : List UInt8
  payload : List UInt8
  padding : List UInt8

namespace FrameParts

def bytes (f : FrameParts) : List UInt8 :=
  f.addresses ++ (f.tag.bytes ++ ([0x08, 0x00] ++ (f.ipv4 ++ (f.udp ++ (f.payload ++ f.padding)))))

def ipv4Offset (f : FrameParts) : Nat := 14 + f.tag.bytes.length

def udpOffset (f : FrameParts) : Nat := f.ipv4Offset + f.ipv4.length

def payloadOffset (f : FrameParts) : Nat := f.udpOffset + 8

end FrameParts

/-- The parts of a frame, with the lengths and fields that they must have. -/
structure UdpFrame extends FrameParts where
  addresses_length : addresses.length = 12
  five_le : 5 ≤ ihl
  le_fifteen : ihl ≤ 15
  ipv4_length : ipv4.length = 4 * ihl
  version_ihl : ipv4[0]? = some (UInt8.ofNat (0x40 + ihl))
  protocol : ipv4[9]? = some 17
  udp_length : udp.length = 8
  length_field : Bytes.ofBE ((udp.drop 4).take 2) = 8 + payload.length

namespace DpdkPacketHandler

variable {mem byte : Nat → UInt8} {packet addr len : Nat} {f : UdpFrame}

theorem versionIhl_iff {b : UInt8} {ihl : Nat} (hihl : ihl ≤ 15) :
    b = UInt8.ofNat (0x40 + ihl) ↔ b >>> 4 = 4 ∧ headerLen b = 4 * ihl := by
  have hhigh : (b >>> 4).toNat = b.toNat / 16 := by
    rw [UInt8.toNat_shiftRight]
    exact Nat.shiftRight_eq_div_pow _ 4
  have hlow : headerLen b = b.toNat % 16 * 4 := by
    unfold headerLen
    rw [UInt8.toNat_and]
    exact congrArg (· * 4) (Nat.and_two_pow_sub_one_eq_mod b.toNat 4)
  have hb := b.toNat_lt
  rw [← UInt8.toNat_inj, ← UInt8.toNat_inj, hhigh, hlow, UInt8.toNat_ofNat']
  change _ ↔ _ = 4 ∧ _
  omega

theorem holds_pair {b₁ b₂ : UInt8} :
    Holds mem addr [b₁, b₂] ↔ mem addr = b₁ ∧ mem (addr + 1) = b₂ := by
  rw [holds_cons, holds_cons]
  simp [Holds, slice]

theorem holds_bytes : Holds mem packet f.bytes ↔
    Holds mem packet f.addresses ∧ Holds mem (packet + 12) f.tag.bytes ∧
      Holds mem (packet + (f.ipv4Offset - 2)) [0x08, 0x00] ∧
      Holds mem (packet + f.ipv4Offset) f.ipv4 ∧ Holds mem (packet + f.udpOffset) f.udp ∧
      Holds mem (packet + f.payloadOffset) f.payload ∧
      Holds mem (packet + (f.payloadOffset + f.payload.length)) f.padding := by
  have h₁ : packet + 12 + f.tag.bytes.length = packet + (f.ipv4Offset - 2) := by
    unfold FrameParts.ipv4Offset
    omega
  have h₂ : packet + (f.ipv4Offset - 2) + 2 = packet + f.ipv4Offset := by
    unfold FrameParts.ipv4Offset
    omega
  have h₃ : packet + f.ipv4Offset + f.ipv4.length = packet + f.udpOffset := Nat.add_assoc _ _ _
  have h₄ : packet + f.udpOffset + 8 = packet + f.payloadOffset := Nat.add_assoc _ _ _
  unfold FrameParts.bytes
  rw [holds_append, f.addresses_length, holds_append, h₁, holds_append]
  change _ ∧ _ ∧ _ ∧ Holds mem (packet + (f.ipv4Offset - 2) + 2) _ ↔ _
  rw [h₂, holds_append, h₃, holds_append, f.udp_length, h₄, holds_append, Nat.add_assoc packet]

/-! ## Frames are accepted -/

theorem ipv4Offset_eq (h : Holds mem packet f.bytes) :
    DpdkPacketHandler.ipv4Offset (fun i => mem (packet + i)) = f.ipv4Offset := by
  obtain ⟨-, htag, htype, -⟩ := holds_bytes.mp h
  unfold DpdkPacketHandler.ipv4Offset
  rw [be16At_mem]
  unfold FrameParts.ipv4Offset at htype ⊢
  cases hf : f.tag with
  | untagged =>
      rw [hf] at htype
      obtain ⟨h₁, h₂⟩ := holds_pair.mp htype
      rw [show mem (packet + 12) = 0x08 from h₁, show mem (packet + 12 + 1) = 0x00 from h₂]
      rfl
  | customer hi lo =>
      rw [hf] at htag
      obtain ⟨h₁, htag⟩ := holds_cons.mp htag
      obtain ⟨h₂, -⟩ := holds_cons.mp htag
      rw [h₁, h₂]
      rfl
  | service hi lo =>
      rw [hf] at htag
      obtain ⟨h₁, htag⟩ := holds_cons.mp htag
      obtain ⟨h₂, -⟩ := holds_cons.mp htag
      rw [h₁, h₂]
      rfl

theorem headerLen_eq (h : Holds mem packet f.bytes) :
    mem (packet + f.ipv4Offset) >>> 4 = 4 ∧
      headerLen (mem (packet + f.ipv4Offset)) = f.ipv4.length := by
  obtain ⟨-, -, -, hipv4, -⟩ := holds_bytes.mp h
  have hlen := f.ipv4_length
  have hfive := f.five_le
  have hhead := (hipv4.getElem? (i := 0) (by omega)).symm.trans f.version_ihl
  rw [hlen]
  exact (versionIhl_iff f.le_fifteen).mp (Option.some.inj hhead)

theorem udpOffset_eq (h : Holds mem packet f.bytes) :
    DpdkPacketHandler.udpOffset (fun i => mem (packet + i)) = f.udpOffset := by
  unfold DpdkPacketHandler.udpOffset FrameParts.udpOffset
  rw [ipv4Offset_eq h, (headerLen_eq h).2]

theorem udpLen_eq (h : Holds mem packet f.bytes) :
    udpLen (fun i => mem (packet + i)) = 8 + f.payload.length := by
  obtain ⟨-, -, -, -, hudp, -⟩ := holds_bytes.mp h
  have hudp : slice mem (packet + f.udpOffset) 8 = f.udp := by
    rw [← f.udp_length]
    exact hudp
  unfold udpLen
  rw [udpOffset_eq h, be16At_mem, be16_toNat, ← f.length_field, ← hudp, drop_slice,
    take_slice (by decide), Nat.add_assoc packet]
  rfl

theorem length_bytes :
    f.bytes.length = f.payloadOffset + f.payload.length + f.padding.length := by
  have haddresses := f.addresses_length
  have hudp := f.udp_length
  simp only [FrameParts.bytes, FrameParts.payloadOffset, FrameParts.udpOffset,
    FrameParts.ipv4Offset, List.length_append, List.length_cons, List.length_nil]
  omega

theorem accepts_of_holds (h : Holds mem packet f.bytes) :
    Accepts (fun i => mem (packet + i)) f.bytes.length := by
  obtain ⟨-, -, htype, hipv4, -⟩ := holds_bytes.mp h
  obtain ⟨htype₁, htype₂⟩ := holds_pair.mp htype
  have hoff : 14 ≤ f.ipv4Offset := Nat.le_add_right 14 _
  have hlen := f.ipv4_length
  have hfive := f.five_le
  have hprotocol := (hipv4.getElem? (i := 9) (by omega)).symm.trans f.protocol
  have hudpLen : (be16At (fun i => mem (packet + i)) (f.ipv4Offset + f.ipv4.length + 4)).toNat =
      8 + f.payload.length := by
    rw [← udpLen_eq h, udpLen, udpOffset_eq h]
    rfl
  rw [accepts_iff (ipv4Offset_eq h)]
  constructor
  · rw [be16At_mem, htype₁, htype₂]
    rfl
  · have hheader := headerLen_eq h
    constructor
    · exact hheader.1
    · rw [hheader.2]
      omega
    · exact Option.some.inj hprotocol
    · rw [hheader.2, hudpLen]
      omega
    · rw [hheader.2, hudpLen, length_bytes]
      change f.udpOffset + (8 + f.payload.length) ≤ f.udpOffset + 8 + _ + _
      omega

/-! ## What is accepted is a frame -/

def tagOf (byte : Nat → UInt8) : VlanTag :=
  if be16At byte 12 = 0x8100 then .customer (byte 14) (byte 15)
  else if be16At byte 12 = 0x88a8 then .service (byte 14) (byte 15)
  else .untagged

theorem length_tagOf : 14 + (tagOf byte).bytes.length = DpdkPacketHandler.ipv4Offset byte := by
  unfold tagOf DpdkPacketHandler.ipv4Offset
  by_cases hcustomer : be16At byte 12 = 0x8100
  · have htag : IsTagType (be16At byte 12) := .inl hcustomer
    rw [if_pos hcustomer, if_pos htag]
    rfl
  · rw [if_neg hcustomer]
    by_cases hservice : be16At byte 12 = 0x88a8
    · have htag : IsTagType (be16At byte 12) := .inr hservice
      rw [if_pos hservice, if_pos htag]
      rfl
    · have htag : ¬ IsTagType (be16At byte 12) := not_or.mpr ⟨hcustomer, hservice⟩
      rw [if_neg hservice, if_neg htag]
      rfl

theorem holds_tagOf : Holds mem (packet + 12) (tagOf fun i => mem (packet + i)).bytes := by
  unfold tagOf
  split_ifs with hcustomer hservice
  · obtain ⟨h₁, h₂⟩ := be16_inj (c := 0x81) (d := 0x00).mp hcustomer
    exact holds_cons.mpr ⟨h₁, holds_cons.mpr ⟨h₂, holds_pair.mpr ⟨rfl, rfl⟩⟩⟩
  · obtain ⟨h₁, h₂⟩ := be16_inj (c := 0x88) (d := 0xa8).mp hservice
    exact holds_cons.mpr ⟨h₁, holds_cons.mpr ⟨h₂, holds_pair.mpr ⟨rfl, rfl⟩⟩⟩
  · rfl

theorem four_dvd_headerLen (b : UInt8) : 4 * (headerLen b / 4) = headerLen b := by
  unfold headerLen
  omega

def partsOf (mem : Nat → UInt8) (packet len : Nat) : FrameParts :=
  let byte := fun i => mem (packet + i)
  { addresses := slice mem packet 12
    tag := tagOf byte
    ihl := headerLen (mem (packet + ipv4Offset byte)) / 4
    ipv4 := slice mem (packet + ipv4Offset byte) (headerLen (mem (packet + ipv4Offset byte)))
    udp := slice mem (packet + udpOffset byte) 8
    payload := slice mem (packet + (udpOffset byte + 8)) (udpLen byte - 8)
    padding := slice mem (packet + (udpOffset byte + udpLen byte))
      (len - (udpOffset byte + udpLen byte)) }

theorem ipv4Offset_partsOf :
    (partsOf mem packet len).ipv4Offset = ipv4Offset fun i => mem (packet + i) :=
  length_tagOf

theorem udpOffset_partsOf :
    (partsOf mem packet len).udpOffset = udpOffset fun i => mem (packet + i) := by
  unfold FrameParts.udpOffset
  rw [ipv4Offset_partsOf]
  exact congrArg _ length_slice

theorem payloadOffset_partsOf :
    (partsOf mem packet len).payloadOffset = (udpOffset fun i => mem (packet + i)) + 8 :=
  congrArg (· + 8) udpOffset_partsOf

/-- Accepted headers make the parts a frame. -/
theorem exists_frame (h : Accepts (fun i => mem (packet + i)) len) :
    ∃ f : UdpFrame, f.toFrameParts = partsOf mem packet len := by
  have hihl := h.ihl
  have hle := headerLen_le (mem (packet + ipv4Offset fun i => mem (packet + i)))
  have hwords := four_dvd_headerLen (mem (packet + ipv4Offset fun i => mem (packet + i)))
  have height : 8 ≤ udpLen fun i => mem (packet + i) := h.eight_le
  have hversion := (versionIhl_iff (by omega)).mpr ⟨h.version, hwords.symm⟩
  refine ⟨⟨partsOf mem packet len, length_slice, ?_, ?_, ?_, ?_, ?_, length_slice, ?_⟩, rfl⟩
  · change 5 ≤ headerLen _ / 4
    omega
  · change headerLen _ / 4 ≤ 15
    omega
  · exact length_slice.trans hwords.symm
  · calc
      _ = some (mem (packet + (ipv4Offset fun i => mem (packet + i)) + 0)) :=
        getElem?_slice (by omega)
      _ = _ := congrArg some hversion
  · calc
      _ = some (mem (packet + (ipv4Offset fun i => mem (packet + i)) + 9)) :=
        getElem?_slice (by omega)
      _ = _ := by
        rw [Nat.add_assoc]
        exact congrArg some h.protocol
  · have hfield : Bytes.ofBE (slice mem (packet + udpOffset (fun i => mem (packet + i)) + 4) 2) =
        udpLen fun i => mem (packet + i) := by
      unfold udpLen
      rw [be16At_mem, be16_toNat]
      rfl
    change Bytes.ofBE (((slice _ _ _).drop 4).take 2) = 8 + (slice _ _ _).length
    rw [drop_slice, take_slice (by decide), hfield, length_slice]
    omega

theorem length_payload (hf : f.toFrameParts = partsOf mem packet len) :
    f.payload.length = udpLen (fun i => mem (packet + i)) - 8 := by
  rw [hf]
  exact length_slice

theorem length_padding (hf : f.toFrameParts = partsOf mem packet len) :
    f.padding.length = len -
      (udpOffset (fun i => mem (packet + i)) + udpLen (fun i => mem (packet + i))) := by
  rw [hf]
  exact length_slice

theorem bytes_eq_slice (h : Accepts (fun i => mem (packet + i)) len)
    (hf : f.toFrameParts = partsOf mem packet len) : f.bytes = slice mem packet len := by
  have height : 8 ≤ udpLen fun i => mem (packet + i) := h.eight_le
  have hfits := h.fits'
  have hpayload := length_payload hf
  have hpadding := length_padding hf
  have hoffset : f.payloadOffset = udpOffset (fun i => mem (packet + i)) + 8 := by
    rw [hf]
    exact payloadOffset_partsOf
  apply eq_slice_iff.mpr
  constructor
  · rw [length_bytes]
    omega
  · have hend : f.payloadOffset + f.payload.length =
        udpOffset (fun i => mem (packet + i)) + udpLen fun i => mem (packet + i) := by omega
    rw [holds_bytes, hend, hoffset, hf, ipv4Offset_partsOf, udpOffset_partsOf]
    obtain ⟨htype₁, htype₂⟩ := be16_inj (c := 0x08) (d := 0x00).mp h.etherType
    have hnext : packet + (ipv4Offset (fun i => mem (packet + i)) - 2) + 1 =
        packet + (ipv4Offset (fun i => mem (packet + i)) - 2 + 1) := Nat.add_assoc _ _ _
    exact ⟨holds_slice, holds_tagOf, holds_pair.mpr ⟨htype₁, hnext ▸ htype₂⟩, holds_slice,
      holds_slice, holds_slice, holds_slice⟩

/-- **The parser accepts exactly the frames, and returns exactly their payload.** -/
theorem extractUdpPayload_iff_frame (mem : Nat → UInt8) (packet : Nat) (packetLen : UInt16) :
    ∃ result, eval mem (extractUdpPayload (some packet) packetLen) = some result ∧
      ∀ p n, result = some (p, n) ↔ ∃ f : UdpFrame,
        f.bytes = slice mem packet packetLen.toNat ∧ p = packet + f.payloadOffset ∧
          n.toNat = f.payload.length ∧ slice mem p n.toNat = f.payload := by
  obtain ⟨result, hresult⟩ := extractUdpPayload_returns mem packet packetLen
  refine ⟨result, hresult, ?_⟩
  intro p n
  have hiff : eval mem (extractUdpPayload (some packet) packetLen) = some (some (p, n)) ↔ _ :=
    extractUdpPayload_eq_some
  rw [hresult, Option.some.injEq] at hiff
  rw [hiff]
  constructor
  · rintro ⟨h, rfl, hn⟩
    obtain ⟨f, hf⟩ := exists_frame h
    have hpayload := length_payload hf
    have hlength : n.toNat = udpLen (fun i => mem (packet + i)) - 8 := by omega
    refine ⟨f, bytes_eq_slice h hf, ?_, by omega, ?_⟩
    · rw [hf, payloadOffset_partsOf]
    · rw [hlength, hf]
      rfl
  · rintro ⟨f, hbytes, rfl, hn, -⟩
    obtain ⟨hlength, hholds⟩ := eq_slice_iff.mp hbytes
    refine ⟨?_, ?_, ?_⟩
    · rw [← hlength]
      exact accepts_of_holds hholds
    · rw [udpOffset_eq hholds]
      rfl
    · rw [udpLen_eq hholds]
      omega

end DpdkPacketHandler

end UltraHft.MarketData
