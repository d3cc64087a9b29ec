import UltraHft.Examples.Proofs.Dispatch
import UltraHft.MarketData.Proofs.MarketDataHandler.InPlace
import UltraHft.MarketData.Proofs.MarketDataHandler.Notifications
import UltraHft.MarketData.Proofs.MarketDataHandler.Shares

/-!
# Heartbeats

A frame without messages has no block that `process_itch_payload` could dispatch,
so the 20 bytes of its header are processed as a raw message.  A cancel and a
delete message fit into 20 bytes: their type is then the third byte of the
session, their order reference what follows the eighth.
-/

namespace UltraHft.Examples.MarketDataPipelineDemo

open UltraHft.Lib UltraHft.Lib.Reads UltraHft.MarketData UltraHft.MarketData.MarketDataHandler

variable {C : Type} {h : MarketDataHandler C} {mem : Nat → UInt8} {payload : Nat}
  {session data : List UInt8} {seq : UInt64}

def heartbeat (session : List UInt8) (seq : UInt64) : List UInt8 :=
  session ++ (Bytes.toBE 8 seq.toNat ++ Bytes.toBE 2 0)

/-- The last two bytes of the session and the first six of the sequence number,
as the machine reads them. -/
def hiddenRef (session : List UInt8) (seq : UInt64) : UInt64 :=
  UInt64.ofNat (Bytes.ofLE (session.drop 8 ++ (Bytes.toBE 8 seq.toNat).take 6))

/-- The header is a cancel or a delete message, and the search of the index for
its order does not come back with null. -/
def NamesOrder (h : MarketDataHandler C) (session : List UInt8) (seq : UInt64) : Prop :=
  (session[2]? = some Itch.msgCancelOrder ∨ session[2]? = some Itch.msgDeleteOrder) ∧
    h.orderBook_.orders_.find (hiddenRef session seq) ≠ some none

/-- What was made of it leaves the book, the count and the events as they were. -/
def Idle (h : MarketDataHandler C) (after : Option (MarketDataHandler C)) : Prop :=
  ∃ h', after = some h' ∧ h'.orderBook_ = h.orderBook_ ∧ Silent h h'

/-! ## The header as a message -/

theorem length_heartbeat (hlen : session.length = 10) (seq : UInt64) :
    (heartbeat session seq).length = 20 := by
  simp [heartbeat, hlen]

/-- A frame that announces no message is one slice. -/
theorem slices_heartbeat (hlen : session.length = 10)
    (hmem : Holds mem payload (heartbeat session seq)) :
    slices mem payload 20 = [(payload, 20)] := by
  have hslice : slice mem payload 20 = heartbeat session seq := by
    rw [← length_heartbeat hlen seq]
    exact hmem
  have hcount : slice mem (payload + 18) 2 = Bytes.toBE 2 0 := by
    calc
      _ = (slice mem payload 20).drop 18 := (drop_slice 18).symm
      _ = (session ++ Bytes.toBE 8 seq.toNat ++ Bytes.toBE 2 0).drop 18 := by
        rw [hslice, heartbeat, List.append_assoc]
      _ = _ := List.drop_left' (by simp [hlen])
  have hblocks : payloadBlocks mem payload 20 = [] := by
    rw [payloadBlocks, if_neg (by decide), hcount, Bytes.ofBE_toBE (by decide)]
    rfl
  rw [slices, if_pos hblocks]

theorem eval_heartbeat (hlen : session.length = 10)
    (hmem : Holds mem payload (heartbeat session seq)) :
    eval mem (processItchPayload processMessageAt h payload 20) =
      (h.processMessage (some (heartbeat session seq))).map Prod.snd := by
  have hslice : slice mem payload 20 = heartbeat session seq := by
    rw [← length_heartbeat hlen seq]
    exact hmem
  rw [eval_processItchPayload, slices_heartbeat hlen hmem, List.foldlM_cons, call,
    eval_processMessageAt, hslice]
  cases h.processMessage (some (heartbeat session seq)) <;> rfl

theorem type_heartbeat (hlen : session.length = 10) (seq : UInt64) (type : UInt8) :
    (Itch.MessageHeader.read (heartbeat session seq)).messageType = type ↔
      session[2]? = some type := by
  have hthird : session.drop 2 = session[2] :: session.drop 3 := List.drop_eq_getElem_cons _
  have hfield : Bytes.field 2 1 (heartbeat session seq) = session[2].toNat := by
    unfold Bytes.field heartbeat
    rw [List.drop_append_of_le_length (by omega), hthird, List.cons_append, List.take_succ_cons,
      List.take_zero, Bytes.ofLE_cons, Bytes.ofLE_nil, Nat.mul_zero, Nat.add_zero]
  change UInt8.ofNat (Bytes.field 2 1 (heartbeat session seq)) = type ↔ _
  rw [hfield, UInt8.ofNat_toNat, List.getElem?_eq_getElem, Option.some.injEq]

theorem ref_heartbeat (hlen : session.length = 10) :
    Itch.u64 8 (heartbeat session seq) = hiddenRef session seq := by
  unfold Itch.u64 Bytes.field hiddenRef heartbeat
  have hshort : (session.drop 8).length = 2 := by simp [hlen]
  rw [List.drop_append_of_le_length (by omega), List.take_append, hshort,
    List.take_of_length_le (by omega), List.take_append_of_le_length (by simp)]

/-! ## Messages of 20 bytes -/

/-- The other types ask for more than 20 bytes. -/
theorem processMessage_refused (hlen : data.length = 20)
    (hcancel : (Itch.MessageHeader.read data).messageType ≠ Itch.msgCancelOrder)
    (hdelete : (Itch.MessageHeader.read data).messageType ≠ Itch.msgDeleteOrder) :
    h.processMessage (some data) =
      some (false, { h with totalMessages_ := h.totalMessages_ + 1 }) := by
  have hadd : Itch.AddOrderMessage.cast data = none := if_pos (by omega)
  have hexecute : Itch.ExecuteOrderMessage.cast data = none := if_pos (by omega)
  have hreplace : Itch.ReplaceOrderMessage.cast data = none := if_pos (by omega)
  have htrade : Itch.TradeMessage.cast data = none := if_pos (by omega)
  unfold processMessage
  dsimp only
  rw [if_neg (by omega), if_neg hcancel, if_neg hdelete, hadd, hexecute, hreplace, htrade]
  split_ifs <;> rfl

theorem removeOrder_idle_iff {h : MarketDataHandler C} {orderRef : UInt64}
    {eventType : MarketDataEventType} {timestampNs : UInt64} {message : Message} :
    Idle h (h.removeOrder orderRef eventType timestampNs message) ↔
      h.orderBook_.orders_.find orderRef = some none := by
  constructor
  · intro ⟨h', hremove, hbook, hsilent⟩
    unfold removeOrder at hremove
    obtain ⟨⟨cancelled, book⟩, hcancel, hr⟩ := Option.bind_eq_some_iff.mp hremove
    unfold OrderBook.cancelOrder at hcancel
    obtain ⟨found, hfound, hcancel⟩ := Option.bind_eq_some_iff.mp hcancel
    cases found with
    | none => exact hfound
    | some slot =>
        obtain ⟨⟨erased, orders⟩, herase, hcancel⟩ := Option.bind_eq_some_iff.mp hcancel
        obtain ⟨rfl, -⟩ := Prod.mk.inj (Option.some.inj hcancel)
        have hnotifies : Notifies h h' :=
          ⟨_, Option.some.inj hr ▸ notifies_fireProcessed { h with orderBook_ := book } _ _ _⟩
        exact absurd hsilent (not_silent_of_notifies hnotifies)
  · intro hnone
    have hcancel : h.orderBook_.cancelOrder orderRef = some (false, h.orderBook_) := by
      rw [OrderBook.cancelOrder, hnone]
      rfl
    refine ⟨h, ?_, rfl, rfl, rfl⟩
    rw [removeOrder]
    dsimp only
    rw [hcancel]
    rfl

theorem processMessage_removal (hlen : data.length = 20) :
    ((Itch.MessageHeader.read data).messageType = Itch.msgCancelOrder ∨
      (Itch.MessageHeader.read data).messageType = Itch.msgDeleteOrder) →
    ∃ eventType timestampNs message, h.processMessage (some data) =
      (removeOrder { h with totalMessages_ := h.totalMessages_ + 1 } (Itch.u64 8 data) eventType
        timestampNs message).map fun h' => (true, h') := by
  have hcancel : ∃ msg, Itch.CancelOrderMessage.cast data = some msg ∧
      msg.orderRef = Itch.u64 8 data := ⟨_, if_neg (by omega), rfl⟩
  have hdelete : ∃ msg, Itch.DeleteOrderMessage.cast data = some msg ∧
      msg.orderRef = Itch.u64 8 data := ⟨_, if_neg (by omega), rfl⟩
  obtain ⟨cancel, hcancel, hcancelRef⟩ := hcancel
  obtain ⟨delete, hdelete, hdeleteRef⟩ := hdelete
  unfold processMessage
  dsimp only
  rw [if_neg (by omega), hcancel, hdelete]
  rintro (htype | htype)
  · rw [htype, if_neg (by decide), if_neg (by decide), if_pos rfl, ← hcancelRef]
    exact ⟨_, _, _, rfl⟩
  · rw [htype, if_neg (by decide), if_neg (by decide), if_neg (by decide), if_pos rfl,
      ← hdeleteRef]
    exact ⟨_, _, _, rfl⟩

/-- **A heartbeat leaves the handler as it was exactly if its header does not
pass for a cancel or delete message of an order that the index finds.** -/
theorem heartbeat_idle_iff (h : MarketDataHandler C) (session : List UInt8)
    (hlen : session.length = 10) (seq : UInt64) (mem : Nat → UInt8) (payload : Nat)
    (hmem : Holds mem payload (heartbeat session seq)) :
    Idle h (eval mem (processItchPayload processMessageAt h payload 20)) ↔
      ¬ NamesOrder h session seq := by
  have hlength := length_heartbeat hlen seq
  rw [eval_heartbeat hlen hmem]
  unfold NamesOrder
  rw [← type_heartbeat hlen seq, ← type_heartbeat hlen seq,
    ← ref_heartbeat hlen]
  generalize heartbeat session seq = data at hlength
  by_cases htype : (Itch.MessageHeader.read data).messageType = Itch.msgCancelOrder ∨
    (Itch.MessageHeader.read data).messageType = Itch.msgDeleteOrder
  · obtain ⟨eventType, timestampNs, message, hremove⟩ :=
      processMessage_removal (h := h) hlength htype
    rw [hremove, Option.map_map, Function.comp_def, Option.map_id']
    -- counting the message does not show in what is compared
    calc
      _ ↔ Idle { h with totalMessages_ := h.totalMessages_ + 1 } (removeOrder
          { h with totalMessages_ := h.totalMessages_ + 1 } (Itch.u64 8 data) eventType
          timestampNs message) := Iff.rfl
      _ ↔ h.orderBook_.orders_.find (Itch.u64 8 data) = some none := removeOrder_idle_iff
      _ ↔ _ := by simp [htype]
  · obtain ⟨hcancel, hdelete⟩ := not_or.mp htype
    rw [processMessage_refused hlength hcancel hdelete]
    exact iff_of_true ⟨_, rfl, rfl, rfl, rfl⟩ fun hnames => htype hnames.1

/-- The session is all zeros in ASCII but for its third byte. -/
def sessionD : List UInt8 := "00D0000000".toList.map Char.toUInt8

/-- An add message for a hundred shares of order 12336, whose bytes are the last
two of the session. -/
def addHidden : List UInt8 :=
  Bytes.toLE 2 41 ++ ['A'.toUInt8, 0] ++ Bytes.toLE 4 0 ++ Bytes.toLE 8 12336 ++ ['B'.toUInt8] ++
    Bytes.toLE 4 100 ++ List.replicate 8 ' '.toUInt8 ++ Bytes.toLE 8 10000000 ++ Bytes.toLE 4 1

/-- The book has order 7; the hidden reference is another one. -/
theorem heartbeat_idle_iff_otherOrder : ∃ h : MarketDataHandler Unit,
    (new Unit 1).processMessage (some addSeven) = some (true, h) ∧
    h.orderBook_.orderCount = 1 ∧ hiddenRef sessionD 1 = 12336 ∧
    Idle h (eval (memoryOf (heartbeat sessionD 1))
      (processItchPayload processMessageAt h 0 20)) := by
  have hadded : ((new Unit 1).processMessage (some addSeven)).map (fun r =>
      (r.1, r.2.orderBook_.orderCount, r.2.orderBook_.orders_.find 12336)) =
        some (true, 1, some none) := by decide
  obtain ⟨⟨ok, h⟩, hadd, hadded⟩ := Option.map_eq_some_iff.mp hadded
  simp only [Prod.mk.injEq] at hadded
  obtain ⟨rfl, hcount, hnone⟩ := hadded
  have href : hiddenRef sessionD 1 = 12336 := by decide
  refine ⟨h, hadd, hcount, href, ?_⟩
  apply (heartbeat_idle_iff h sessionD (by decide) 1 _ 0 (holds_memoryOf _)).mpr
  intro hnames
  rw [NamesOrder, href] at hnames
  exact hnames.2 hnone

/-- The heartbeat of this session deletes the order. -/
theorem heartbeat_deletes :
    ¬ ∀ (h : MarketDataHandler Unit) (session : List UInt8) (seq : UInt64) (mem : Nat → UInt8)
      (payload : Nat), Reachable h → session.length = 10 →
      Holds mem payload (heartbeat session seq) →
      Idle h (eval mem (processItchPayload processMessageAt h payload 20)) := by
  intro hall
  have htalk : Says 12336 addHidden (.add 100) := ⟨.inl (by decide), _, rfl, by decide, by decide⟩
  have hnew : (new Unit 1).orderBook_.Holds 12336 0 := OrderBook.holds_new 1 12336
  obtain ⟨h, hstep, hbook⟩ := processMessage_add_holds hnew htalk (by decide)
  have hreach : Reachable h := ⟨1, [.processMessage (some addHidden)], by
    rw [Runs.exec, hstep]
    rfl⟩
  have hidle := hall h sessionD 1 _ 0 hreach (by decide) (holds_memoryOf _)
  rw [heartbeat_idle_iff h sessionD (by decide) 1 _ 0 (holds_memoryOf _)] at hidle
  have href : hiddenRef sessionD 1 = 12336 := by decide
  have hfound : h.orderBook_.orders_.find 12336 = some (some (h.orderBook_.orders_.hash 12336)) :=
    FlatOrderMap.find_of_occupied hbook.toOnly.probe_eq hbook.here
  refine hidle ⟨.inr (by decide), ?_⟩
  rw [href, hfound]
  simp

end UltraHft.Examples.MarketDataPipelineDemo
