import UltraHft.MarketData.Proofs.MarketDataHandler.Reachable
import UltraHft.MarketData.Proofs.OrderBook.OneOrder
import UltraHft.MarketData.Proofs.OrderBook.StoredOrders

/-!
# Events and changes of the book

A message about an order should be reported to the callbacks and counted as
processed exactly when it changes the stored orders.  The answer of the book
decides this for every type but one: a replace message is reported whatever the
book answers.
-/

namespace UltraHft.MarketData.MarketDataHandler

open UltraHft.Lib
open OrderBook (storedOrders)

variable {C : Type} {h h' : MarketDataHandler C} {data : List UInt8}

/-- Some stored order was added, removed or altered. -/
def Changed (h h' : MarketDataHandler C) : Prop :=
  h'.orderBook_.storedOrders ≠ h.orderBook_.storedOrders

/-- Every callback got the event, in order of registration, and the message
counts as processed. -/
def NotifiesOf (h h' : MarketDataHandler C) (event : MarketDataEvent) : Prop :=
  h'.invoked = h.invoked ++ (h.callbacks_.map fun callback => (callback, event)) ∧
    h'.messagesProcessed_ = h.messagesProcessed_ + 1

def Notifies (h h' : MarketDataHandler C) : Prop := ∃ event, NotifiesOf h h' event

def Silent (h h' : MarketDataHandler C) : Prop :=
  h'.invoked = h.invoked ∧ h'.messagesProcessed_ = h.messagesProcessed_

/-- A change, and nothing but a change, is reported. -/
structure Reports (h h' : MarketDataHandler C) : Prop where
  changed : Changed h h' → Notifies h h'
  unchanged : ¬ Changed h h' → Silent h h'

/-- If the handler returns from the message, it has reported the change. -/
def ReportsChange (h : MarketDataHandler C) (data : List UInt8) : Prop :=
  ∀ ok h', h.processMessage (some data) = some (ok, h') → Reports h h'

def IsOrderMessage (data : List UInt8) : Prop :=
  (Itch.MessageHeader.read data).messageType ∈ [Itch.msgAddOrder, Itch.msgAddOrderMpid,
    Itch.msgExecuteOrder, Itch.msgExecuteOrderWithPrice, Itch.msgCancelOrder,
    Itch.msgDeleteOrder, Itch.msgReplaceOrder]

instance : DecidablePred IsOrderMessage := fun _ => inferInstanceAs (Decidable (_ ∈ _))

/-- A replace message of full size for an order that the index does not find. -/
def ReplacesUnknown (h : MarketDataHandler C) (data : List UInt8) : Prop :=
  (Itch.MessageHeader.read data).messageType = Itch.msgReplaceOrder ∧
    ∃ msg, Itch.ReplaceOrderMessage.cast data = some msg ∧
      h.orderBook_.orders_.find msg.orderRef = some none

section Outcomes

theorem notifies_fireProcessed (h : MarketDataHandler C) (eventType : MarketDataEventType)
    (timestampNs : UInt64) (data : Message) :
    NotifiesOf h (h.fireProcessed eventType timestampNs data)
      ⟨eventType, h.instrumentId_, timestampNs, data⟩ := ⟨rfl, rfl⟩

theorem not_silent_of_notifies (hn : Notifies h h') : ¬ Silent h h' := by
  intro hs
  obtain ⟨event, hn⟩ := hn
  have hcount : h.messagesProcessed_ + 1 = h.messagesProcessed_ := hn.2.symm.trans hs.2
  have hnat := congrArg UInt64.toNat hcount
  rw [UInt64.toNat_add, UInt64.toNat_one] at hnat
  have hlt := h.messagesProcessed_.toNat_lt
  omega

theorem reports_of_changed (hc : Changed h h') (hn : Notifies h h') : Reports h h' :=
  ⟨fun _ => hn, fun hu => (hu hc).elim⟩

theorem reports_of_unchanged (hu : ¬ Changed h h') (hs : Silent h h') : Reports h h' :=
  ⟨fun hc => (hu hc).elim, fun _ => hs⟩

theorem reports_refl (h : MarketDataHandler C) : Reports h h :=
  reports_of_unchanged (fun hc => hc rfl) ⟨rfl, rfl⟩

theorem reports_of_counted (hr : Reports { h with totalMessages_ := h.totalMessages_ + 1 } h') :
    Reports h h' := ⟨hr.changed, hr.unchanged⟩

theorem reports_ite {fires : Prop} [Decidable fires] {book : OrderBook}
    {eventType : MarketDataEventType} {timestampNs : UInt64} {data : Message}
    (hfires : fires ↔ book.storedOrders ≠ h.orderBook_.storedOrders)
    (hr : (if fires then
        some (fireProcessed { h with orderBook_ := book } eventType timestampNs data)
      else some { h with orderBook_ := book }) = some h') : Reports h h' := by
  by_cases hf : fires
  · rw [if_pos hf] at hr
    rw [← Option.some.inj hr]
    exact reports_of_changed (hfires.mp hf)
      ⟨_, notifies_fireProcessed { h with orderBook_ := book } eventType timestampNs data⟩
  · rw [if_neg hf] at hr
    rw [← Option.some.inj hr]
    exact reports_of_unchanged (fun hc => hf (hfires.mpr hc)) ⟨rfl, rfl⟩

end Outcomes

/-! ## Message by message -/

section Messages

variable (hb : FlatOrderMap.Constructed h.orderBook_.orders_)

include hb

theorem added_reports {msg : Itch.AddOrderMessage} (hr : h.processAddOrder msg = some h') :
    Reports h h' := by
  unfold processAddOrder at hr
  obtain ⟨⟨added, book⟩, hadd, hr⟩ := Option.bind_eq_some_iff.mp hr
  apply reports_ite ?_ hr
  rcases OrderBook.addOrder_cases hb hadd with ⟨rfl, rfl⟩ | ⟨rfl, hgain⟩
  · simp
  · rw [hgain.storedOrders]
    exact iff_of_true rfl (Multiset.lt_cons_self _ _).ne'

theorem executed_reports {msg : Itch.ExecuteOrderMessage}
    (hr : h.processExecuteOrder msg = some h') : Reports h h' := by
  unfold processExecuteOrder at hr
  obtain ⟨⟨executed, book⟩, hexecute, hr⟩ := Option.bind_eq_some_iff.mp hr
  apply reports_ite ?_ hr
  rcases OrderBook.executeOrder_cases hb hexecute with ⟨rfl, hsame⟩ | ⟨hsome, hchanged⟩
  · simp [hsame]
  · exact iff_of_true (UInt32.pos_iff_ne_zero.mpr hsome) hchanged

theorem removed_reports {orderRef : UInt64} {eventType : MarketDataEventType}
    {timestampNs : UInt64} {data : Message}
    (hr : h.removeOrder orderRef eventType timestampNs data = some h') : Reports h h' := by
  unfold removeOrder at hr
  obtain ⟨⟨cancelled, book⟩, hcancel, hr⟩ := Option.bind_eq_some_iff.mp hr
  apply reports_ite ?_ hr
  rcases OrderBook.cancelOrder_cases hb hcancel with ⟨rfl, _, rfl⟩ | ⟨rfl, j, _, hgone⟩
  · simp
  · rw [hgone]
    exact iff_of_true rfl (Multiset.lt_cons_self _ _).ne

/-- A replace message is always reported. -/
theorem replaced_notifies {msg : Itch.ReplaceOrderMessage}
    (hr : h.processReplaceOrder msg = some h') : Notifies h h' ∧
      (Changed h h' ↔ h.orderBook_.orders_.find msg.orderRef ≠ some none) := by
  unfold processReplaceOrder at hr
  obtain ⟨⟨cancelled, book⟩, hcancel, hr⟩ := Option.bind_eq_some_iff.mp hr
  rw [← Option.some.inj hr]
  refine ⟨⟨_, notifies_fireProcessed { h with orderBook_ := book } _ _ _⟩, ?_⟩
  change book.storedOrders ≠ h.orderBook_.storedOrders ↔ _
  rcases OrderBook.cancelOrder_cases hb hcancel with ⟨_, hnone, rfl⟩ | ⟨_, j, hfound, hgone⟩
  · simp [hnone]
  · rw [hgone, hfound]
    exact iff_of_true (Multiset.lt_cons_self _ _).ne (by simp)

end Messages

/-! ## Dispatch -/

theorem dispatch_reports {M : Type} {msg : Option M}
    {process : M → Option (MarketDataHandler C)} {ok : Bool}
    (hprocess : ∀ m h', process m = some h' → Reports h h')
    (hr : h.dispatch msg process = some (ok, h')) : Reports h h' := by
  unfold dispatch at hr
  cases msg with
  | none =>
      rw [← (Prod.mk.inj (Option.some.inj hr)).2]
      exact reports_refl h
  | some m =>
      rw [Option.map_eq_some_iff] at hr
      obtain ⟨h'', hp, heq⟩ := hr
      rw [← (Prod.mk.inj heq).2]
      exact hprocess m h'' hp

theorem processMessage_reports (hb : FlatOrderMap.Constructed h.orderBook_.orders_)
    (htype : IsOrderMessage data)
    (hno : (Itch.MessageHeader.read data).messageType ≠ Itch.msgReplaceOrder) :
    ReportsChange h data := by
  intro ok h' hr
  have hb' : FlatOrderMap.Constructed
    { h with totalMessages_ := h.totalMessages_ + 1 }.orderBook_.orders_ := hb
  unfold processMessage at hr
  dsimp only at hr
  rw [if_neg hno] at hr
  split_ifs at hr with hshort hadd hexecute hcancel hdelete htrade
  · rw [← (Prod.mk.inj (Option.some.inj hr)).2]
    exact reports_refl h
  · exact reports_of_counted (dispatch_reports (fun _ _ => added_reports hb') hr)
  · exact reports_of_counted (dispatch_reports (fun _ _ => executed_reports hb') hr)
  · exact reports_of_counted (dispatch_reports (fun _ _ => removed_reports hb') hr)
  · exact reports_of_counted (dispatch_reports (fun _ _ => removed_reports hb') hr)
  · rw [IsOrderMessage, htrade] at htype
    exact absurd htype (by decide)
  · rw [← (Prod.mk.inj (Option.some.inj hr)).2]
    exact reports_of_counted (reports_refl _)

theorem processMessage_replace
    (htype : (Itch.MessageHeader.read data).messageType = Itch.msgReplaceOrder)
    (hlen : ¬ data.length < 3) :
    h.processMessage (some data) = dispatch { h with totalMessages_ := h.totalMessages_ + 1 }
      (Itch.ReplaceOrderMessage.cast data)
      (processReplaceOrder { h with totalMessages_ := h.totalMessages_ + 1 }) := by
  unfold processMessage
  dsimp only
  rw [if_neg hlen, htype, if_neg (by decide), if_neg (by decide), if_neg (by decide),
    if_neg (by decide), if_pos rfl]

theorem processMessage_replace_reports (hb : FlatOrderMap.Constructed h.orderBook_.orders_)
    (htype : (Itch.MessageHeader.read data).messageType = Itch.msgReplaceOrder)
    (hknown : ¬ ReplacesUnknown h data) : ReportsChange h data := by
  intro ok h' hr
  by_cases hlen : data.length < 3
  · unfold processMessage at hr
    dsimp only at hr
    rw [if_pos hlen] at hr
    rw [← (Prod.mk.inj (Option.some.inj hr)).2]
    exact reports_refl h
  · rw [processMessage_replace htype hlen] at hr
    unfold dispatch at hr
    cases hcast : Itch.ReplaceOrderMessage.cast data with
    | none =>
        rw [hcast] at hr
        rw [← (Prod.mk.inj (Option.some.inj hr)).2]
        exact reports_of_counted (reports_refl _)
    | some msg =>
        rw [hcast] at hr
        obtain ⟨h'', hp, heq⟩ := Option.map_eq_some_iff.mp hr
        rw [← (Prod.mk.inj heq).2]
        have hb' : FlatOrderMap.Constructed
          { h with totalMessages_ := h.totalMessages_ + 1 }.orderBook_.orders_ := hb
        obtain ⟨hnotifies, hchanged⟩ := replaced_notifies hb' hp
        apply reports_of_counted
        apply reports_of_changed (hchanged.mpr ?_) hnotifies
        exact fun hnone => hknown ⟨htype, msg, hcast, hnone⟩

/-- A replace message for an unknown order is reported and changes nothing. -/
theorem not_reportsChange (hb : FlatOrderMap.Constructed h.orderBook_.orders_)
    (hunknown : ReplacesUnknown h data) : ¬ ReportsChange h data := by
  obtain ⟨htype, msg, hcast, hnone⟩ := hunknown
  have hlen : ¬ data.length < 3 := Itch.not_short_of_castMessage hcast (by decide)
  have hcancel : h.orderBook_.cancelOrder msg.orderRef = some (false, h.orderBook_) := by
    rw [OrderBook.cancelOrder, hnone]
    rfl
  have hb' : FlatOrderMap.Constructed
    { h with totalMessages_ := h.totalMessages_ + 1 }.orderBook_.orders_ := hb
  obtain ⟨h', hp⟩ : ∃ h',
      processReplaceOrder { h with totalMessages_ := h.totalMessages_ + 1 } msg = some h' := by
    rw [processReplaceOrder]
    dsimp only
    rw [hcancel]
    exact ⟨_, rfl⟩
  intro hreports
  have hrun : h.processMessage (some data) = some (true, h') := by
    rw [processMessage_replace htype hlen, hcast, dispatch, hp]
    rfl
  obtain ⟨hnotifies, hchanged⟩ := replaced_notifies hb' hp
  have hsilent := (hreports true h' hrun).unchanged fun hc => (hchanged.mp hc) hnone
  exact not_silent_of_notifies hnotifies hsilent

/-- **A message about an order is reported exactly when it changes the book,
unless it is a replace message for an order that the index does not find.** -/
theorem reportsChange_iff (h : MarketDataHandler C) (hreach : Reachable h) (data : List UInt8)
    (htype : IsOrderMessage data) : ReportsChange h data ↔ ¬ ReplacesUnknown h data := by
  have hb := hreach.constructed
  constructor
  · intro hreports hunknown
    exact not_reportsChange hb hunknown hreports
  · intro hknown
    by_cases hreplace : (Itch.MessageHeader.read data).messageType = Itch.msgReplaceOrder
    · exact processMessage_replace_reports hb hreplace hknown
    · exact processMessage_reports hb htype hreplace

def addSeven : List UInt8 :=
  Bytes.toLE 2 41 ++ ['A'.toUInt8, 0] ++ Bytes.toLE 4 0 ++ Bytes.toLE 8 7 ++ ['B'.toUInt8] ++
    Bytes.toLE 4 10 ++ List.replicate 8 ' '.toUInt8 ++ Bytes.toLE 8 100 ++ Bytes.toLE 4 0

def replaceSeven : List UInt8 :=
  Bytes.toLE 2 36 ++ ['U'.toUInt8, 0] ++ Bytes.toLE 4 0 ++ Bytes.toLE 8 7 ++ Bytes.toLE 8 8 ++
    Bytes.toLE 4 10 ++ Bytes.toLE 8 100

/-- A subscriber is told that the order it heard of before was replaced. -/
theorem reportsChange_iff_replacedSeven : ∃ h h' : MarketDataHandler Unit,
    ((new Unit 1).registerCallback ()).processMessage (some addSeven) = some (true, h) ∧
    h.processMessage (some replaceSeven) = some (true, h') ∧
    ReportsChange h replaceSeven ∧ Changed h h' ∧ Notifies h h' := by
  have hrun : (((new Unit 1).registerCallback ()).processMessage (some addSeven)).bind
      (fun r => (r.2.processMessage (some replaceSeven)).map fun r' =>
        (r.1, r'.1, (r.2.orderBook_.orders_.find 7).map Option.isSome,
          r.2.invoked.length, r'.2.invoked.length)) =
        some (true, true, some true, 1, 2) := by decide
  obtain ⟨⟨ok, h⟩, hadd, hrun⟩ := Option.bind_eq_some_iff.mp hrun
  obtain ⟨⟨ok', h'⟩, hreplace, hrun⟩ := Option.map_eq_some_iff.mp hrun
  obtain ⟨rfl, rfl, hseven, hone, htwo⟩ : ok = true ∧ ok' = true ∧
      (h.orderBook_.orders_.find 7).map Option.isSome = some true ∧
      h.invoked.length = 1 ∧ h'.invoked.length = 2 := by
    simpa only [Prod.mk.injEq] using hrun
  have hreach : Reachable h := by
    refine ⟨1, [.registerCallback (), .processMessage (some addSeven)], ?_⟩
    change ((((new Unit 1).registerCallback ()).processMessage (some addSeven)).map
      Prod.snd).bind some = some h
    rw [hadd]
    rfl
  have hknown : ¬ ReplacesUnknown h replaceSeven := by
    rintro ⟨-, msg, hmsg, hnone⟩
    have hcast : (Itch.ReplaceOrderMessage.cast replaceSeven).map
        Itch.ReplaceOrderMessage.orderRef = some 7 := by decide
    rw [hmsg] at hcast
    rw [← Option.some.inj hcast, hnone] at hseven
    cases hseven
  have hreports := (reportsChange_iff h hreach replaceSeven (by decide)).mpr hknown
  have hchanged : Changed h h' := by
    by_contra hsame
    have hsilent := ((hreports true h' hreplace).unchanged hsame).1
    rw [hsilent] at htwo
    omega
  exact ⟨h, h', hadd, hreplace, hreports, hchanged, (hreports true h' hreplace).changed hchanged⟩

/-- A subscriber of an empty book is told that an order was replaced. -/
theorem unknownReplace_reported :
    ¬ ∀ (h : MarketDataHandler Unit) (data : List UInt8), Reachable h → IsOrderMessage data →
      ReportsChange h data := by
  intro hall
  have hreach : Reachable ((new Unit 1).registerCallback ()) := ⟨1, [.registerCallback ()], rfl⟩
  apply not_reportsChange hreach.constructed ?_ (hall _ replaceSeven hreach (by decide))
  have honly := (OrderBook.holds_new 1 7).toOnly
  exact ⟨by decide, _, rfl, FlatOrderMap.find_of_free honly.probe_eq honly.here⟩

end UltraHft.MarketData.MarketDataHandler
