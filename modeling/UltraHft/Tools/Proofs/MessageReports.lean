import UltraHft.Tools.Proofs.WireFormat
import UltraHft.Tools.UdpReceiver

/-!
# What the receiver reports of the sender's messages

A message starts with its length, and the receiver takes its first byte for the
type.  That byte is the high one of a length below 256, so the receiver reports
every message under an unknown type and reads no further.
-/

namespace UltraHft.Tools.UdpReceiver

open UltraHft.Lib UltraHft.Tools.ItchSender

variable {ns orderRef shares price cancelled : Nat} {side stock : String} {body : List UInt8}

def unknownInfo (len : Nat) : Info where
  type := some "Unknown(b'\\x00')"
  rawType := some ['\x00']
  len := some len

@[simp] theorem rawType_unknownInfo (len : Nat) :
    (unknownInfo len).rawType = some ['\x00'] := rfl

theorem rawType_ne_of_unknown {msg : List UInt8} {info : Info} {len : Nat} {c : Char}
    (hparse : parseItchMessage msg = some (unknownInfo len))
    (hinfo : parseItchMessage msg = some info) (hc : c ≠ '\x00') : info.rawType ≠ some [c] := by
  obtain rfl := Option.some.inj (hparse.symm.trans hinfo)
  rw [rawType_unknownInfo]
  intro hraw
  exact hc (List.head_eq_of_cons_eq (Option.some.inj hraw)).symm

theorem parseItchMessage_zero (rest : List UInt8) :
    parseItchMessage (0 :: rest) = some (unknownInfo (rest.length + 1)) := by
  have hname : typeName 0 = "Unknown(b'\\x00')" := by decide
  have hraw : decode [0] = ['\x00'] := by decide
  unfold parseItchMessage
  dsimp only
  rw [hname, hraw, if_neg (fun h => absurd h.1 (by decide)),
    if_neg (fun h => absurd h.1 (by decide)), if_neg (fun h => absurd h.1 (by decide))]
  rfl

theorem parseItchMessage_layout (messageType : Char) (hlen : 8 + body.length < 256) :
    parseItchMessage (layout messageType ns body) = some (unknownInfo (8 + body.length)) := by
  have hhigh : Bytes.toBE 2 (8 + body.length) = [0, UInt8.ofNat (8 + body.length)] := by
    change [UInt8.ofNat ((8 + body.length) / 256), UInt8.ofNat (8 + body.length)] = _
    rw [Nat.div_eq_of_lt hlen]
    rfl
  have hlength : (layout messageType ns body).length = 8 + body.length :=
    length_layout messageType
  rw [← hlength]
  unfold layout
  rw [hhigh]
  exact parseItchMessage_zero _

/-- The receiver reports the order that an add message was made of. -/
def ReportsAdd (ns orderRef : Nat) (side : String) (shares : Nat) (stock : String)
    (price : Nat) : Prop :=
  ∃ msg info, makeAddOrder ns orderRef side shares stock price = some msg ∧
    parseItchMessage msg = some info ∧ info.rawType = some ['A'] ∧
    info.side = some side.toList ∧ info.shares = some shares ∧ info.stock = some stock.toList

/-- The receiver reports the shares that a cancel message was made of. -/
def ReportsCancel (ns orderRef cancelled : Nat) : Prop :=
  ∃ msg info, makeCancel ns orderRef cancelled = some msg ∧
    parseItchMessage msg = some info ∧ info.rawType = some ['X'] ∧
    info.cancelled = some cancelled

theorem parse_makeAddOrder (ns : Nat) (stock : String) (href : orderRef < 2 ^ 64)
    (hshares : shares < 2 ^ 32) (hprice : price < 2 ^ 64) (hside : side = "B" ∨ side = "S") :
    ∃ msg, makeAddOrder ns orderRef side shares stock price = some msg ∧
      parseItchMessage msg = some (unknownInfo 41) := by
  have hbyte : ∃ s, encode side = [s] := by
    rcases hside with rfl | rfl
    · exact ⟨'B'.toUInt8, by decide⟩
    · exact ⟨'S'.toUInt8, by decide⟩
  obtain ⟨s, hs⟩ := hbyte
  have hlen : (addBody orderRef s shares (stockBytes stock) price).length = 33 := by
    simp [addBody, length_stockBytes]
  refine ⟨_, makeAddOrder_eq href hshares hprice hs, ?_⟩
  rw [parseItchMessage_layout 'A' (by omega), hlen]

theorem parse_makeCancel (ns : Nat) (href : orderRef < 2 ^ 64) (hcancelled : cancelled < 2 ^ 32) :
    ∃ msg, makeCancel ns orderRef cancelled = some msg ∧
      parseItchMessage msg = some (unknownInfo 20) := by
  have hlen : (Bytes.toBE 8 orderRef ++ Bytes.toBE 4 cancelled).length = 12 := by simp
  refine ⟨_, makeCancel_eq href hcancelled, ?_⟩
  rw [parseItchMessage_layout 'X' (by omega), hlen]

theorem not_reportsAdd {msg : List UInt8} {len : Nat}
    (hmake : makeAddOrder ns orderRef side shares stock price = some msg)
    (hparse : parseItchMessage msg = some (unknownInfo len)) :
    ¬ ReportsAdd ns orderRef side shares stock price := by
  rintro ⟨msg', info, hmsg, hinfo, hraw, -⟩
  obtain rfl := Option.some.inj (hmake.symm.trans hmsg)
  exact rawType_ne_of_unknown hparse hinfo (by decide) hraw

theorem not_reportsCancel {msg : List UInt8} {len : Nat}
    (hmake : makeCancel ns orderRef cancelled = some msg)
    (hparse : parseItchMessage msg = some (unknownInfo len)) :
    ¬ ReportsCancel ns orderRef cancelled := by
  rintro ⟨msg', info, hmsg, hinfo, hraw, -⟩
  obtain rfl := Option.some.inj (hmake.symm.trans hmsg)
  exact rawType_ne_of_unknown hparse hinfo (by decide) hraw

/-- Every add and every cancel message is built, and reported under an unknown
type with none of its fields. -/
theorem reports_unknown (ns orderRef shares price cancelled : Nat) (side stock : String)
    (href : orderRef < 2 ^ 64) (hshares : shares < 2 ^ 32) (hprice : price < 2 ^ 64)
    (hside : side = "B" ∨ side = "S") (hcancelled : cancelled < 2 ^ 32) :
    ((∃ msg, makeAddOrder ns orderRef side shares stock price = some msg ∧
        parseItchMessage msg = some (unknownInfo 41)) ∧
      ¬ ReportsAdd ns orderRef side shares stock price) ∧
    (∃ msg, makeCancel ns orderRef cancelled = some msg ∧
        parseItchMessage msg = some (unknownInfo 20)) ∧
      ¬ ReportsCancel ns orderRef cancelled := by
  obtain ⟨add, hadd, haddInfo⟩ := parse_makeAddOrder ns stock href hshares hprice hside
  obtain ⟨cancel, hcancel, hcancelInfo⟩ := parse_makeCancel ns href hcancelled
  exact ⟨⟨⟨add, hadd, haddInfo⟩, not_reportsAdd hadd haddInfo⟩,
    ⟨cancel, hcancel, hcancelInfo⟩, not_reportsCancel hcancel hcancelInfo⟩

theorem reports_unknown_sellOrder :
    ((∃ msg, makeAddOrder 0 77 "S" 250 "GOOGL" 99000 = some msg ∧
        parseItchMessage msg = some (unknownInfo 41)) ∧
      ¬ ReportsAdd 0 77 "S" 250 "GOOGL" 99000) ∧
    (∃ msg, makeCancel 0 77 250 = some msg ∧
        parseItchMessage msg = some (unknownInfo 20)) ∧
      ¬ ReportsCancel 0 77 250 :=
  reports_unknown 0 77 250 99000 250 "S" "GOOGL" (by decide) (by decide) (by decide)
    (by decide) (by decide)

theorem firstOrder_not_reported :
    ¬ ReportsAdd 0 1 "B" 100 "AAPL" 150000 ∧ ¬ ReportsCancel 0 1 100 := by
  obtain ⟨add, hadd, haddInfo⟩ := parse_makeAddOrder 0 "AAPL" (show 1 < 2 ^ 64 by decide)
    (show 100 < 2 ^ 32 by decide) (show 150000 < 2 ^ 64 by decide) (.inl rfl)
  obtain ⟨cancel, hcancel, hcancelInfo⟩ := parse_makeCancel 0 (show 1 < 2 ^ 64 by decide)
    (show 100 < 2 ^ 32 by decide)
  exact ⟨not_reportsAdd hadd haddInfo, not_reportsCancel hcancel hcancelInfo⟩

end UltraHft.Tools.UdpReceiver
