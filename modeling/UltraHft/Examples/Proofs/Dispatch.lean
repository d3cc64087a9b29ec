import UltraHft.Examples.MarketDataPipelineDemo
import UltraHft.MarketData.Proofs.DpdkPacketHandler.Headers
import UltraHft.Tools.Proofs.Framing

/-!
# What a payload is dispatched as

`process_itch_payload` calls `process_message` on slices of the payload, one
after another.  They are the blocks that the fallback receiver finds, or the
whole payload where it finds none.
-/

namespace UltraHft.Examples.MarketDataPipelineDemo

open UltraHft.Lib UltraHft.Lib.Reads UltraHft.MarketData UltraHft.Tools

variable {σ : Type} {process : σ → Option Nat → Nat → Reads (Bool × σ)} {mem : Nat → UInt8}
  {payload len off rounds : Nat} {handler : σ} {any : Bool}

theorem eval_readBe16 (mem : Nat → UInt8) (p : Nat) :
    ∃ value, eval mem (readBe16 p) = some value ∧
      value.toNat = Bytes.ofBE (slice mem p 2) := by
  refine ⟨be16 (mem p) (mem (p + 1)), readBe16_eq mem p, ?_⟩
  rw [be16_toNat]
  rfl

def call (process : σ → Option Nat → Nat → Reads (Bool × σ)) (mem : Nat → UInt8) (handler : σ)
    (s : Nat × Nat) : Option σ :=
  (eval mem (process handler (some s.1) s.2)).map Prod.snd

/-- The blocks of a payload, in at most `rounds` rounds from `off` on. -/
def blockSlices (mem : Nat → UInt8) (payload len : Nat) : Nat → Nat → List (Nat × Nat)
  | 0, _ => []
  | rounds + 1, off =>
      let blockLen := Bytes.ofBE (slice mem (payload + off) 2)
      if len < off + 2 ∨ blockLen = 0 ∨ len < off + 2 + blockLen then []
      else
        (payload + (off + 2), blockLen) ::
          blockSlices mem payload len rounds (off + 2 + blockLen)

def payloadBlocks (mem : Nat → UInt8) (payload len : Nat) : List (Nat × Nat) :=
  if len < 20 then []
  else blockSlices mem payload len (Bytes.ofBE (slice mem (payload + 18) 2)) 20

/-- The slices that `process_message` is called on. -/
def slices (mem : Nat → UInt8) (payload len : Nat) : List (Nat × Nat) :=
  if payloadBlocks mem payload len = [] then [(payload, len)] else payloadBlocks mem payload len

def content (mem : Nat → UInt8) (s : Nat × Nat) : List UInt8 := slice mem s.1 s.2

theorem eval_processBlocks :
    eval mem (processBlocks process payload len rounds handler off any) =
      ((blockSlices mem payload len rounds off).foldlM (call process mem) handler).map
        fun h => (h, any || !(blockSlices mem payload len rounds off).isEmpty) := by
  induction rounds generalizing handler off any with
  | zero => simp [processBlocks, blockSlices]
  | succ rounds ih =>
      obtain ⟨value, hvalue, hnat⟩ := eval_readBe16 mem (payload + off)
      rw [processBlocks, blockSlices]
      by_cases hlen : len < off + 2
      · simp [hlen]
      · rw [if_neg hlen, ← hnat]
        simp only [eval_bind, hvalue, Option.bind_some]
        have hzero : value = 0 ↔ value.toNat = 0 := UInt16.toNat_inj.symm
        by_cases hbroken : value = 0 ∨ len < off + 2 + value.toNat
        · have hstop : len < off + 2 ∨ value.toNat = 0 ∨ len < off + 2 + value.toNat := by
            rw [hzero] at hbroken
            exact .inr hbroken
          rw [if_pos hbroken, if_pos hstop]
          simp
        · have hgo : ¬ (len < off + 2 ∨ value.toNat = 0 ∨ len < off + 2 + value.toNat) := by
            rw [hzero] at hbroken
            omega
          rw [if_neg hbroken, if_neg hgo, List.foldlM_cons, call, eval_bind]
          cases eval mem (process handler (some (payload + (off + 2))) value.toNat) with
          | none => rfl
          | some result =>
              simp only [Option.bind_some, Option.map_some, ih]
              rw [List.isEmpty_cons, Bool.not_false, Bool.or_true, Bool.true_or]
              rfl

/-- All that `process_itch_payload` does is to call `process_message` on the
slices of the payload. -/
theorem eval_processItchPayload :
    eval mem (processItchPayload process handler payload len) =
      (slices mem payload len).foldlM (call process mem) handler := by
  have hwhole : ((eval mem (process handler (some payload) len)).bind
      fun result => some result.2) = [(payload, len)].foldlM (call process mem) handler := by
    rw [List.foldlM_cons, call]
    cases eval mem (process handler (some payload) len) <;> rfl
  unfold processItchPayload slices payloadBlocks
  by_cases hlen : len < 20
  · simp only [if_pos hlen, if_neg (show ¬ 20 ≤ len by omega)]
    simpa using hwhole
  · obtain ⟨value, hvalue, hnat⟩ := eval_readBe16 mem (payload + 18)
    simp only [if_neg hlen, if_pos (show 20 ≤ len by omega), eval_bind, hvalue,
      Option.bind_some, eval_processBlocks, ← hnat]
    cases hblocks : blockSlices mem payload len value.toNat 20 with
    | nil => simpa using hwhole
    | cons s blocks =>
        simp only [List.isEmpty_cons, reduceCtorEq, if_false]
        cases (s :: blocks).foldlM (call process mem) handler <;> rfl

/-! ## The blocks, as bytes -/

theorem content_blockSlices : (blockSlices mem payload len rounds off).map (content mem) =
    Framing.frames 2 rounds ((slice mem payload len).drop off) := by
  induction rounds generalizing off with
  | zero => rfl
  | succ rounds ih =>
      have hlength : ((slice mem payload len).drop off).length = len - off := by simp
      rw [blockSlices, Framing.frames, drop_slice]
      by_cases hlen : len < off + 2
      · have hnone : Framing.takeFrame 2 (slice mem (payload + off) (len - off)) = none := by
          apply if_pos
          rw [length_slice]
          omega
        simp [hlen, hnone]
      · have htwo : (slice mem (payload + off) (len - off)).take 2 =
            slice mem (payload + off) 2 := take_slice (by omega)
        have hbehind : (slice mem (payload + off) (len - off)).drop 2 =
            slice mem (payload + (off + 2)) (len - (off + 2)) := by
          rw [drop_slice, Nat.add_assoc, Nat.sub_sub]
        by_cases hbroken : Bytes.ofBE (slice mem (payload + off) 2) = 0 ∨
            len < off + 2 + Bytes.ofBE (slice mem (payload + off) 2)
        · have hnone : Framing.takeFrame 2 (slice mem (payload + off) (len - off)) = none := by
            apply if_pos
            rw [htwo, hbehind, length_slice, length_slice]
            omega
          rw [if_pos (.inr hbroken), hnone]
          rfl
        · have hsome : Framing.takeFrame 2 (slice mem (payload + off) (len - off)) =
              some ((slice mem (payload + (off + 2)) (len - (off + 2))).take
                  (Bytes.ofBE (slice mem (payload + off) 2)),
                (slice mem (payload + (off + 2)) (len - (off + 2))).drop
                  (Bytes.ofBE (slice mem (payload + off) 2))) := by
            unfold Framing.takeFrame
            simp only [htwo, hbehind]
            apply if_neg
            rw [length_slice, length_slice]
            omega
          rw [if_neg (by omega), hsome, List.map_cons, ih, take_slice (by omega)]
          simp only [content, drop_slice, Nat.add_assoc, Nat.sub_sub]

theorem content_payloadBlocks : UdpReceiver.parseMoldudp64 (slice mem payload len) =
    some ((payloadBlocks mem payload len).map (content mem)) := by
  unfold payloadBlocks
  by_cases hlen : len < 20
  · rw [if_pos hlen]
    apply UdpReceiver.parseMoldudp64_short
    rwa [length_slice]
  · rw [if_neg hlen, content_blockSlices, UdpReceiver.parseMoldudp64_eq (by simp; omega),
      drop_slice, take_slice (by omega)]

/-- `process_itch_payload` calls `process_message` on slices with just these
bytes, in this order, whatever the calls do to the handler. -/
def Dispatches (mem : Nat → UInt8) (payload len : Nat) (msgs : List (List UInt8)) : Prop :=
  ∃ slices : List (Nat × Nat), slices.map (content mem) = msgs ∧
    ∀ (σ : Type) (process : σ → Option Nat → Nat → Reads (Bool × σ)) (handler : σ),
      eval mem (processItchPayload process handler payload len) =
        slices.foldlM (call process mem) handler

/-- **The two receivers find the same messages in every payload.** -/
theorem decoders_agree (mem : Nat → UInt8) (payload len : Nat) :
    ∃ msgs, UdpReceiver.parseMoldudp64 (slice mem payload len) = some msgs ∧
      Dispatches mem payload len (if msgs = [] then [slice mem payload len] else msgs) := by
  refine ⟨_, content_payloadBlocks, slices mem payload len, ?_, ?_⟩
  · unfold slices
    by_cases hblocks : payloadBlocks mem payload len = []
    · simp [hblocks, content]
    · simp [hblocks]
  · intro σ process handler
    exact eval_processItchPayload

end UltraHft.Examples.MarketDataPipelineDemo
