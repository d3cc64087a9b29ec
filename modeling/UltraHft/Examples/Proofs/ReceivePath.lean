import UltraHft.Examples.Proofs.Dispatch
import UltraHft.MarketData.Proofs.MarketDataHandler.InPlace
import Mathlib.Order.Interval.Set.Basic

/-!
# The receive path stays inside the packet

Each function checks a length before it reads: `extract_udp_payload` that the
headers and the payload are in the packet, `process_itch_payload` that a block is
in the payload, `process_message` that a struct is in the block.
-/

namespace UltraHft.Examples.MarketDataPipelineDemo

open UltraHft.Lib UltraHft.Lib.Reads UltraHft.MarketData

variable {σ C : Type} {process : σ → Option Nat → Nat → Reads (Bool × σ)} {mem : Nat → UInt8}
  {packet payload len off rounds : Nat} {packetLen etherType : UInt16}
  {handler : σ} {any : Bool}

def span (data size : Nat) : Set Nat := Set.Ico data (data + size)

theorem within_byteAt (h : off < len) : Within mem (span packet len) (byte (packet + off)) := by
  apply within_byte
  exact ⟨by omega, by omega⟩

theorem within_readBe16 (h : off + 2 ≤ len) :
    Within mem (span packet len) (readBe16 (packet + off)) := by
  apply within_bind (within_byteAt (by omega))
  intro hi _
  rw [Nat.add_assoc]
  apply within_bind (within_byteAt (by omega))
  intro lo _
  exact within_pure _

theorem within_udpDstPort :
    Within mem (span packet packetLen.toNat) (udpDstPort packet packetLen) := by
  apply within_ite
  · intro _
    exact within_pure 0
  · intro hlen
    apply within_bind
    · apply within_ite
      · intro _
        apply within_bind (within_readBe16 (by omega))
        intro et _
        exact within_pure _
      · intro _
        exact within_pure 14
    intro off hoff
    have hle : off ≤ 18 := by
      rw [eval_ite, eval_bind] at hoff
      split_ifs at hoff
      · obtain ⟨et, _, htag⟩ := Option.bind_eq_some_iff.mp hoff
        rw [← Option.some.inj htag]
        split <;> omega
      · rw [← Option.some.inj hoff]
        omega
    apply within_bind (within_byteAt (by omega))
    intro versionIhl _
    apply within_ite
    · intro _
      exact within_pure 0
    · intro hport
      exact within_readBe16 (by omega)

theorem within_extractFromIpv4 : Within mem (span packet packetLen.toNat)
    (DpdkPacketHandler.extractFromIpv4 packet packetLen etherType off) := by
  apply within_ite
  · intro _
    exact within_pure none
  · intro hheader
    apply within_bind (within_byteAt (by omega))
    intro versionIhl _
    apply within_ite
    · intro _
      exact within_pure none
    · intro hihl
      apply within_bind (within_byteAt (by omega))
      intro protocol _
      apply within_ite
      · intro _
        exact within_pure none
      · intro _
        apply within_bind (within_readBe16 (by omega))
        intro udpLen _
        apply within_ite
        · intro _
          exact within_pure none
        · intro _
          apply within_ite
          · intro _
            exact within_pure none
          · intro _
            exact within_pure _

theorem within_extractUdpPayload : Within mem (span packet packetLen.toNat)
    (DpdkPacketHandler.extractUdpPayload (some packet) packetLen) := by
  apply within_ite
  · intro _
    exact within_pure none
  · intro hlen
    have hlength : ¬ packetLen.toNat < 14 := hlen
    apply within_bind (within_readBe16 (by omega))
    intro etherType _
    apply within_ite
    · intro _
      apply within_ite
      · intro _
        exact within_pure none
      · intro htag
        have hlength : ¬ packetLen.toNat < 18 := htag
        apply within_bind (within_readBe16 (by omega))
        intro etherType _
        exact within_extractFromIpv4
    · intro _
      exact within_extractFromIpv4

/-! ## The payload lies in the packet -/

/-- The payload that is returned, if one is, lies in the packet. -/
def Returned (packet packetLen : Nat) (udp : Option (Nat × UInt16)) : Prop :=
  ∀ payload len, udp = some (payload, len) →
    packet ≤ payload ∧ payload + len.toNat ≤ packet + packetLen

theorem returned_none : Returned packet len none := by
  intro payload len h
  cases h

theorem extractFromIpv4_returned : Ensures mem (Returned packet packetLen.toNat)
    (DpdkPacketHandler.extractFromIpv4 packet packetLen etherType off) := by
  apply ensures_ite
  · intro _
    exact ensures_pure returned_none
  · intro _
    apply ensures_bind
    intro versionIhl _
    apply ensures_ite
    · intro _
      exact ensures_pure returned_none
    · intro _
      apply ensures_bind
      intro protocol _
      apply ensures_ite
      · intro _
        exact ensures_pure returned_none
      · intro _
        apply ensures_bind
        intro udpLen _
        apply ensures_ite
        · intro _
          exact ensures_pure returned_none
        · intro _
          apply ensures_ite
          · intro _
            exact ensures_pure returned_none
          · intro hfits
            apply ensures_pure
            intro payload len heq
            have hlt := (udpLen - 8).toNat_lt
            obtain ⟨rfl, rfl⟩ := Prod.mk.inj (Option.some.inj heq)
            rw [UInt16.toNat_ofNat']
            omega

theorem extractUdpPayload_returned : Ensures mem (Returned packet packetLen.toNat)
    (DpdkPacketHandler.extractUdpPayload (some packet) packetLen) := by
  apply ensures_ite
  · intro _
    exact ensures_pure returned_none
  · intro _
    apply ensures_bind
    intro etherType _
    apply ensures_ite
    · intro _
      apply ensures_ite
      · intro _
        exact ensures_pure returned_none
      · intro _
        apply ensures_bind
        intro etherType _
        exact extractFromIpv4_returned
    · intro _
      exact extractFromIpv4_returned

/-! ## The blocks lie in the payload -/

theorem within_processBlocks
    (hprocess : ∀ h data size, span data size ⊆ span payload len →
      Within mem (span payload len) (process h (some data) size)) :
    Within mem (span payload len) (processBlocks process payload len rounds handler off any) := by
  induction rounds generalizing handler off any with
  | zero => exact within_pure _
  | succ rounds ih =>
      apply within_ite
      · intro _
        exact within_pure _
      · intro hlen
        apply within_bind (within_readBe16 (by omega))
        intro blockLen _
        apply within_ite
        · intro _
          exact within_pure _
        · intro hblock
          apply within_bind
          · apply hprocess
            apply Set.Ico_subset_Ico
            · omega
            · omega
          · intro result _
            exact ih

/-- Where `process_message` stays inside the slice it is given, the whole payload
is processed inside the payload. -/
theorem within_processItchPayload
    (hprocess : ∀ h data size, Within mem (span data size) (process h (some data) size)) :
    Within mem (span payload len) (processItchPayload process handler payload len) := by
  have hslice : ∀ h data size, span data size ⊆ span payload len →
      Within mem (span payload len) (process h (some data) size) :=
    fun h data size hsub => (hprocess h data size).mono hsub
  apply within_bind
  · apply within_ite
    · intro hlen
      apply within_bind (within_readBe16 (by omega))
      intro msgCount _
      exact within_processBlocks hslice
    · intro _
      exact within_pure _
  · intro result _
    apply within_ite
    · intro _
      exact within_pure _
    · intro _
      apply within_bind (hprocess _ _ _)
      intro result _
      exact within_pure _

theorem blockSlices_bounds {s : Nat × Nat} (h : s ∈ blockSlices mem payload len rounds off) :
    payload + off ≤ s.1 ∧ s.1 + s.2 ≤ payload + len := by
  induction rounds generalizing off with
  | zero => simp [blockSlices] at h
  | succ rounds ih =>
      rw [blockSlices] at h
      split_ifs at h with hbroken
      · simp at h
      · rcases List.mem_cons.mp h with rfl | h
        · constructor
          · simp
          · dsimp only
            omega
        · have hbounds := ih h
          omega

theorem blockSlices_pairwise :
    (blockSlices mem payload len rounds off).Pairwise fun s t => s.1 + s.2 ≤ t.1 := by
  induction rounds generalizing off with
  | zero => exact List.Pairwise.nil
  | succ rounds ih =>
      rw [blockSlices]
      split_ifs with hbroken
      · exact List.Pairwise.nil
      · apply List.Pairwise.cons _ ih
        intro s hs
        have hbounds := blockSlices_bounds hs
        dsimp only
        omega

theorem slices_bounds {s : Nat × Nat} (h : s ∈ slices mem payload len) :
    span s.1 s.2 ⊆ span payload len := by
  unfold slices payloadBlocks at h
  split_ifs at h with hlen hblocks
  · obtain rfl := List.mem_singleton.mp h
    exact subset_rfl
  · simp at h
  · obtain rfl := List.mem_singleton.mp h
    exact subset_rfl
  · have hbounds := blockSlices_bounds h
    apply Set.Ico_subset_Ico
    · omega
    · exact hbounds.2

theorem slices_disjoint :
    (slices mem payload len).Pairwise fun s t => span s.1 s.2 ∩ span t.1 t.2 = ∅ := by
  unfold slices payloadBlocks
  split_ifs
  · exact List.pairwise_singleton _ _
  · exact List.Pairwise.nil
  · exact List.pairwise_singleton _ _
  · apply blockSlices_pairwise.imp
    intro s t hst
    apply Set.eq_empty_of_forall_notMem
    intro a ha
    have hlt := ha.1.2
    have hle := ha.2.1
    omega

/-! ## The whole path -/

theorem payload_subset {udpLen : UInt16}
    (h : eval mem (DpdkPacketHandler.extractUdpPayload (some packet) packetLen) =
      some (some (payload, udpLen))) :
    span payload udpLen.toNat ⊆ span packet packetLen.toNat := by
  have hbounds := extractUdpPayload_returned _ h payload udpLen rfl
  exact Set.Ico_subset_Ico hbounds.1 hbounds.2

theorem within_onPacket (filterPort : UInt16) (handler : MarketDataHandler C) :
    Within mem (span packet packetLen.toNat) (onPacket filterPort handler packet packetLen) := by
  apply within_bind
  · apply within_ite
    · intro _
      apply within_bind within_udpDstPort
      intro port _
      exact within_pure _
    · intro _
      exact within_pure false
  intro other _
  apply within_ite
  · intro _
    exact within_pure _
  · intro _
    apply within_bind within_extractUdpPayload
    intro udp hudp
    cases udp with
    | none => exact within_pure _
    | some udp =>
        apply Within.mono _ (payload_subset hudp)
        exact within_processItchPayload MarketDataHandler.within_processMessageAt

/-- The payload of a packet is read, and dispatched in disjoint slices each of
which is read, inside the packet. -/
structure PayloadInside (C : Type) (mem : Nat → UInt8) (packet packetLen payload len : Nat) :
    Prop where
  inside : span payload len ⊆ span packet packetLen
  within : ∀ handler : MarketDataHandler C, Within mem (span packet packetLen)
    (processItchPayload MarketDataHandler.processMessageAt handler payload len)
  dispatched : ∃ slices : List (Nat × Nat),
    (∀ (σ : Type) (process : σ → Option Nat → Nat → Reads (Bool × σ)) (handler : σ),
      eval mem (processItchPayload process handler payload len) =
        slices.foldlM (call process mem) handler) ∧
    slices.Pairwise (fun s t => span s.1 s.2 ∩ span t.1 t.2 = ∅) ∧
    ∀ s ∈ slices, span s.1 s.2 ⊆ span payload len ∧
      ∀ handler : MarketDataHandler C,
        Within mem (span s.1 s.2) (handler.processMessageAt (some s.1) s.2)

/-- **Nothing is read outside the packet, from the port filter to the last
struct of the last message.** -/
theorem receives_inside (C : Type) (mem : Nat → UInt8) (packet : Nat) (packetLen : UInt16) :
    Within mem (span packet packetLen.toNat) (udpDstPort packet packetLen) ∧
    Within mem (span packet packetLen.toNat)
      (DpdkPacketHandler.extractUdpPayload (some packet) packetLen) ∧
    ∀ payload len, eval mem (DpdkPacketHandler.extractUdpPayload (some packet) packetLen) =
        some (some (payload, len)) →
      PayloadInside C mem packet packetLen.toNat payload len.toNat := by
  refine ⟨within_udpDstPort, within_extractUdpPayload, ?_⟩
  intro payload len hextract
  have hsub := payload_subset hextract
  constructor
  · exact hsub
  · intro handler
    apply Within.mono _ hsub
    exact within_processItchPayload MarketDataHandler.within_processMessageAt
  · refine ⟨slices mem payload len.toNat, ?_, slices_disjoint, ?_⟩
    · intro σ process handler
      exact eval_processItchPayload
    · intro s hs
      refine ⟨slices_bounds hs, ?_⟩
      intro handler
      exact handler.within_processMessageAt s.1 s.2

/-- An Ethernet frame with a tag and two messages, of three and of four bytes. -/
def twoMessageFrame : List UInt8 :=
  List.replicate 12 0 ++ [0x81, 0x00, 0, 5, 0x08, 0x00] ++
  [0x45, 0, 0, 59, 0, 0, 0, 0, 64, 17, 0, 0, 10, 0, 0, 1, 10, 0, 0, 2] ++
  [0x30, 0x0c, 0x30, 0x0c, 0, 39, 0, 0] ++
  List.replicate 18 0 ++ [0, 2, 0, 3, 0, 3, 'S'.toUInt8, 0, 4, 0, 4, 'S'.toUInt8, 0]

theorem receives_inside_twoMessageFrame :
    slices (fun i => twoMessageFrame.getD i 0) 46 31 = [(68, 3), (73, 4)] ∧
    PayloadInside Unit (fun i => twoMessageFrame.getD i 0) 0 77 46 31 :=
  ⟨by decide,
    (receives_inside Unit (fun i => twoMessageFrame.getD i 0) 0 77).2.2 46 31 (by decide)⟩

end UltraHft.Examples.MarketDataPipelineDemo
