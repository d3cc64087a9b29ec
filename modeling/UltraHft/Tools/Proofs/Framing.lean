import UltraHft.Lib.Framing
import UltraHft.Tools.Proofs.WireFormat
import UltraHft.Tools.UdpReceiver

/-!
# MoldUDP64 frames

The receiver finds the blocks of a frame where the sender has put them: behind a
header of twenty bytes, the last two of which announce their number.
-/

namespace UltraHft.Tools

open UltraHft.Lib

namespace UdpReceiver

variable {payload : List UInt8} {off rounds : Nat} {messages msgs : List (List UInt8)}

theorem readBe16_of_le (h : off + 2 ≤ payload.length) :
    readBe16 payload off = some (Bytes.ofBE ((payload.drop off).take 2)) := by
  rw [readBe16, if_neg (by omega)]

/-- The loop collects the frames from its offset on. -/
theorem parseBlocks_eq : parseBlocks payload rounds off messages =
    some (messages ++ Framing.frames 2 rounds (payload.drop off)) := by
  induction rounds generalizing off messages with
  | zero => simp [parseBlocks, Framing.frames]
  | succ rounds ih =>
      have hdrop : (payload.drop off).length = payload.length - off := List.length_drop
      have hrest : ((payload.drop off).drop 2).length = payload.length - off - 2 := by
        rw [List.length_drop, hdrop]
      rw [parseBlocks, Framing.frames]
      by_cases hlength : payload.length < off + 2
      · have hnone : Framing.takeFrame 2 (payload.drop off) = none := if_pos (by omega)
        rw [if_pos hlength, hnone, List.append_nil]
      · rw [if_neg hlength, readBe16_of_le (by omega)]
        simp only [Option.bind_eq_bind, Option.bind_some]
        by_cases hbroken : Bytes.ofBE ((payload.drop off).take 2) = 0 ∨
            payload.length < off + 2 + Bytes.ofBE ((payload.drop off).take 2)
        · have hnone : Framing.takeFrame 2 (payload.drop off) = none := if_pos (by omega)
          rw [if_pos hbroken, hnone, List.append_nil]
        · have hsome : Framing.takeFrame 2 (payload.drop off) =
              some (((payload.drop off).drop 2).take (Bytes.ofBE ((payload.drop off).take 2)),
                ((payload.drop off).drop 2).drop (Bytes.ofBE ((payload.drop off).take 2))) :=
            if_neg (by omega)
          rw [if_neg hbroken, hsome, ih]
          simp [List.drop_drop]

theorem parseMoldudp64_eq (h : 20 ≤ payload.length) : parseMoldudp64 payload =
    some (Framing.frames 2 (Bytes.ofBE ((payload.drop 18).take 2)) (payload.drop 20)) := by
  rw [parseMoldudp64, if_neg (by omega), readBe16_of_le h]
  exact parseBlocks_eq

theorem parseMoldudp64_short (h : payload.length < 20) : parseMoldudp64 payload = some [] :=
  if_pos h

/-- The parser returns the blocks of the payload, all that it announces, and they
take up all of its bytes. -/
structure ParsesAll (payload : List UInt8) (msgs : List (List UInt8)) : Prop where
  parses : parseMoldudp64 payload = some msgs
  count : readBe16 payload 18 = some msgs.length
  bytes : 20 + (msgs.map fun m => 2 + m.length).sum = payload.length

namespace ParsesAll

theorem length_le (h : ParsesAll payload msgs) : 20 ≤ payload.length := by
  have hbytes := h.bytes
  omega

theorem eq_frames (h : ParsesAll payload msgs) :
    Framing.frames 2 (Bytes.ofBE ((payload.drop 18).take 2)) (payload.drop 20) = msgs := by
  have hparse := h.parses
  rw [parseMoldudp64_eq h.length_le] at hparse
  exact Option.some.inj hparse

theorem fits (h : ParsesAll payload msgs) : ∀ m ∈ msgs, Framing.Fits 2 m := by
  intro m hm
  rw [← h.eq_frames] at hm
  exact Framing.fits_of_mem_frames hm

theorem toBE_count (h : ParsesAll payload msgs) :
    msgs.length < 256 ^ 2 ∧ Bytes.toBE 2 msgs.length = (payload.drop 18).take 2 := by
  have hlength := h.length_le
  have htwo : ((payload.drop 18).take 2).length = 2 := by
    rw [List.length_take, List.length_drop]
    omega
  have hcount := h.count
  rw [readBe16_of_le (by omega)] at hcount
  have hfield := Option.some.inj hcount
  have hlt := Bytes.ofBE_lt ((payload.drop 18).take 2)
  have hbytes := Bytes.toBE_ofBE ((payload.drop 18).take 2)
  rw [htwo, hfield] at hlt hbytes
  exact ⟨hlt, hbytes⟩

theorem flatten_encode (h : ParsesAll payload msgs) :
    (msgs.map (Framing.encode 2)).flatten = payload.drop 20 := by
  obtain ⟨rest, hrest⟩ := Framing.exists_eq_encode_frames (w := 2)
    (Bytes.ofBE ((payload.drop 18).take 2)) (payload.drop 20)
  rw [h.eq_frames] at hrest
  have hnil : rest = [] := by
    have hbytes := h.bytes
    have hlengths := congrArg List.length hrest
    rw [List.length_append, Framing.length_flatten_encode, List.length_drop] at hlengths
    exact List.eq_nil_of_length_eq_zero (by omega)
  rw [hrest, hnil, List.append_nil]

end ParsesAll

end UdpReceiver

namespace ItchSender

open UdpReceiver

variable {seq : Nat} {msgs : List (List UInt8)} {payload : List UInt8}

/-- What a frame can carry. -/
structure Encodable (seq : Nat) (msgs : List (List UInt8)) : Prop where
  seq_lt : seq < 2 ^ 64
  count_le : msgs.length ≤ 65535
  fits : ∀ m ∈ msgs, 1 ≤ m.length ∧ m.length ≤ 65535

theorem Encodable.fits_frame (h : Encodable seq msgs) : ∀ m ∈ msgs, Framing.Fits 2 m := by
  intro m hm
  have hbounds := h.fits m hm
  unfold Framing.Fits
  omega

theorem mapM_packBlock (h : ∀ m ∈ msgs, Framing.Fits 2 m) :
    msgs.mapM packBlock = some (msgs.map (Framing.encode 2)) := by
  induction msgs with
  | nil => rfl
  | cons m msgs ih =>
      have hm : packBlock m = some (Framing.encode 2 m) := by
        rw [packBlock, packUnsigned_of_lt (h m (by simp)).2]
        rfl
      rw [List.mapM_cons, hm, ih fun m hmem => h m (by simp [hmem])]
      rfl

def preamble (seq : Nat) : List UInt8 := session ++ Bytes.toBE 8 seq

theorem length_preamble : (preamble seq).length = 18 := by
  rw [preamble, List.length_append, Bytes.length_toBE]
  rfl

theorem buildMoldudp64Frame_eq (hseq : seq < 2 ^ 64) (hcount : msgs.length ≤ 65535)
    (hmsgs : ∀ m ∈ msgs, Framing.Fits 2 m) : buildMoldudp64Frame seq msgs =
      some (preamble seq ++
        (Bytes.toBE 2 msgs.length ++ (msgs.map (Framing.encode 2)).flatten)) := by
  rw [buildMoldudp64Frame, packUnsigned_of_lt (by omega), packUnsigned_of_lt (by omega),
    mapM_packBlock hmsgs]
  simp [preamble]

theorem Encodable.parses (h : Encodable seq msgs) :
    ∃ frame, buildMoldudp64Frame seq msgs = some frame ∧ parseMoldudp64 frame = some msgs := by
  have hcount := h.count_le
  refine ⟨_, buildMoldudp64Frame_eq h.seq_lt hcount h.fits_frame, ?_⟩
  generalize hbody : (msgs.map (Framing.encode 2)).flatten = body
  have hdrop : (preamble seq ++ (Bytes.toBE 2 msgs.length ++ body)).drop 18 =
      Bytes.toBE 2 msgs.length ++ body := List.drop_left' length_preamble
  have hblocks : (preamble seq ++ (Bytes.toBE 2 msgs.length ++ body)).drop 20 = body := by
    rw [show 20 = 18 + 2 from rfl, ← List.drop_drop, hdrop, List.drop_left' Bytes.length_toBE]
  rw [parseMoldudp64_eq, hdrop, hblocks, List.take_left' Bytes.length_toBE,
    Bytes.ofBE_toBE (by omega)]
  · have hframes := Framing.frames_encode h.fits_frame []
    rw [List.append_nil, hbody] at hframes
    rw [hframes]
  · rw [List.length_append, length_preamble, List.length_append, Bytes.length_toBE]
    omega

/-- Building undoes parsing, from the count on. -/
theorem builds_of_parsesAll (hseq : seq < 2 ^ 64) (h : ParsesAll payload msgs) :
    ∃ frame, buildMoldudp64Frame seq msgs = some frame ∧ frame.drop 18 = payload.drop 18 := by
  obtain ⟨hlt, hcount⟩ := h.toBE_count
  refine ⟨_, buildMoldudp64Frame_eq hseq (by omega) h.fits, ?_⟩
  rw [List.drop_left' length_preamble]
  calc Bytes.toBE 2 msgs.length ++ (msgs.map (Framing.encode 2)).flatten
      = (payload.drop 18).take 2 ++ payload.drop 20 := by rw [hcount, h.flatten_encode]
    _ = (payload.drop 18).take 2 ++ (payload.drop 18).drop 2 := by rw [List.drop_drop]
    _ = payload.drop 18 := List.take_append_drop 2 _

/-- **Parsing undoes building, and building undoes a parse that has left out
neither a block nor a byte.** -/
theorem frame_roundTrip (seq : Nat) (msgs : List (List UInt8)) (payload : List UInt8) :
    (Encodable seq msgs →
      ∃ frame, buildMoldudp64Frame seq msgs = some frame ∧ parseMoldudp64 frame = some msgs) ∧
    (seq < 2 ^ 64 → ParsesAll payload msgs →
      ∃ frame, buildMoldudp64Frame seq msgs = some frame ∧
        frame.drop 18 = payload.drop 18) :=
  ⟨Encodable.parses, builds_of_parsesAll⟩

/-- Two messages, of which the second looks like a block. -/
theorem frame_roundTrip_twoMessages :
    (∃ frame, buildMoldudp64Frame 7 [[65], [0, 1, 66]] = some frame ∧
      parseMoldudp64 frame = some [[65], [0, 1, 66]]) ∧
    ∃ frame, buildMoldudp64Frame 7 [[65], [0, 1, 66]] = some frame ∧
      frame.drop 18 = [0, 2, 0, 1, 65, 0, 3, 0, 1, 66] := by
  have hroundTrip := frame_roundTrip 7 [[65], [0, 1, 66]]
    (List.replicate 18 0 ++ [0, 2, 0, 1, 65, 0, 3, 0, 1, 66])
  constructor
  · apply hroundTrip.1
    constructor
    · decide
    · decide
    · simp
  · apply hroundTrip.2 (by decide)
    constructor
    · decide
    · decide
    · decide

end ItchSender

end UltraHft.Tools
