import UltraHft.MarketData.Proofs.MarketDataHandler.Notifications

/-!
# Counters, events and refusals

Buffers of any contents, one after another, to a handler with registered
callbacks.  A buffer is counted by its size alone, is reported if the book
answers so, and leaves nothing behind when it is refused.
-/

namespace UltraHft.MarketData.MarketDataHandler

open UltraHft.Lib
open FlatOrderMap (Constructed HasExit)

variable {C : Type} {h h' : MarketDataHandler C} {data : Option (List UInt8)}

def isCounted (data : Option (List UInt8)) : Bool :=
  data.any fun data => decide (3 ≤ data.length)

def eventOf (instrumentId : UInt32) (data : List UInt8) : Option MarketDataEvent :=
  let msgType := (Itch.MessageHeader.read data).messageType
  if msgType = Itch.msgAddOrder ∨ msgType = Itch.msgAddOrderMpid then
    (Itch.AddOrderMessage.cast data).map fun msg =>
      ⟨.orderAdded, instrumentId, msg.timestamp.toUInt64, .addOrder msg⟩
  else if msgType = Itch.msgExecuteOrder ∨ msgType = Itch.msgExecuteOrderWithPrice then
    (Itch.ExecuteOrderMessage.cast data).map fun msg =>
      ⟨.orderExecuted, instrumentId, msg.timestamp.toUInt64, .executeOrder msg⟩
  else if msgType = Itch.msgCancelOrder then
    (Itch.CancelOrderMessage.cast data).map fun msg =>
      ⟨.orderCancelled, instrumentId, msg.timestamp.toUInt64, .cancelOrder msg⟩
  else if msgType = Itch.msgDeleteOrder then
    (Itch.DeleteOrderMessage.cast data).map fun msg =>
      ⟨.orderDeleted, instrumentId, msg.timestamp.toUInt64, .deleteOrder msg⟩
  else if msgType = Itch.msgReplaceOrder then
    (Itch.ReplaceOrderMessage.cast data).map fun msg =>
      ⟨.orderReplaced, instrumentId, msg.timestamp.toUInt64, .replaceOrder msg⟩
  else if msgType = Itch.msgTrade then
    (Itch.TradeMessage.cast data).map fun msg =>
      ⟨.trade, instrumentId, msg.timestamp.toUInt64, .trade msg⟩
  else none

def lookup (data : List UInt8) : Option UInt64 :=
  let msgType := (Itch.MessageHeader.read data).messageType
  if msgType = Itch.msgAddOrder ∨ msgType = Itch.msgAddOrderMpid then
    (Itch.AddOrderMessage.cast data).map (·.orderRef)
  else if msgType = Itch.msgExecuteOrder ∨ msgType = Itch.msgExecuteOrderWithPrice then
    (Itch.ExecuteOrderMessage.cast data).map (·.orderRef)
  else if msgType = Itch.msgCancelOrder then
    (Itch.CancelOrderMessage.cast data).map (·.orderRef)
  else if msgType = Itch.msgDeleteOrder then
    (Itch.DeleteOrderMessage.cast data).map (·.orderRef)
  else if msgType = Itch.msgReplaceOrder then
    (Itch.ReplaceOrderMessage.cast data).map (·.orderRef)
  else none

/-- A handler with these callbacks, in order of registration. -/
def subscribed (instrumentId : UInt32) (callbacks : List C) : MarketDataHandler C :=
  callbacks.foldl registerCallback (new C instrumentId)

def feed (h : MarketDataHandler C) (buffers : List (Option (List UInt8))) :
    Option (MarketDataHandler C) :=
  Runs.exec (fun h data => (h.processMessage data).map Prod.snd) h buffers

/-- What is counted and fired after some buffers, of which `reported` ones led to
the `events`. -/
structure Accounts (instrumentId : UInt32) (callbacks : List C)
    (buffers : List (Option (List UInt8))) (h : MarketDataHandler C)
    (reported : List (List UInt8)) (events : List MarketDataEvent) : Prop where
  total : h.totalMessages_.toNat = buffers.countP isCounted % 2 ^ 64
  processed : h.messagesProcessed_.toNat = events.length % 2 ^ 64
  bounded : events.length ≤ buffers.countP isCounted
  inOrder : (reported.map some).Sublist buffers
  meant : List.Forall₂ (fun data event => eventOf instrumentId data = some event) reported events
  invoked : h.invoked = events.flatMap fun event =>
    callbacks.map fun callback => (callback, event)

/-! ## One message -/

/-- A message was taken: at most an event was fired for it. -/
structure Took (h h' : MarketDataHandler C) (event : MarketDataEvent) : Prop where
  callbacks : h'.callbacks_ = h.callbacks_
  instrument : h'.instrumentId_ = h.instrumentId_
  total : h'.totalMessages_ = h.totalMessages_
  fired : Silent h h' ∨ NotifiesOf h h' event

theorem took_bind {α : Type} {made : Option (α × OrderBook)} (fires : α → Prop)
    [DecidablePred fires] {eventType : MarketDataEventType} {timestampNs : UInt64}
    {data : Message}
    (hr : (made.bind fun r => if fires r.1 then
        some (fireProcessed { h with orderBook_ := r.2 } eventType timestampNs data)
      else some { h with orderBook_ := r.2 }) = some h') :
    Took h h' ⟨eventType, h.instrumentId_, timestampNs, data⟩ := by
  obtain ⟨⟨answer, book⟩, _, hr⟩ := Option.bind_eq_some_iff.mp hr
  by_cases hf : fires answer
  · rw [if_pos hf] at hr
    rw [← Option.some.inj hr]
    exact ⟨rfl, rfl, rfl, .inr ⟨rfl, rfl⟩⟩
  · rw [if_neg hf] at hr
    rw [← Option.some.inj hr]
    exact ⟨rfl, rfl, rfl, .inl ⟨rfl, rfl⟩⟩

theorem added_took {msg : Itch.AddOrderMessage} (hr : h.processAddOrder msg = some h') :
    Took h h' ⟨.orderAdded, h.instrumentId_, msg.timestamp.toUInt64, .addOrder msg⟩ :=
  took_bind (fun added : Bool => added) hr

theorem executed_took {msg : Itch.ExecuteOrderMessage}
    (hr : h.processExecuteOrder msg = some h') :
    Took h h' ⟨.orderExecuted, h.instrumentId_, msg.timestamp.toUInt64, .executeOrder msg⟩ :=
  took_bind (fun executed : UInt32 => executed > 0) hr

theorem cancelled_took {msg : Itch.CancelOrderMessage}
    (hr : h.processCancelOrder msg = some h') :
    Took h h' ⟨.orderCancelled, h.instrumentId_, msg.timestamp.toUInt64, .cancelOrder msg⟩ :=
  took_bind (fun cancelled : Bool => cancelled) hr

theorem deleted_took {msg : Itch.DeleteOrderMessage}
    (hr : h.processDeleteOrder msg = some h') :
    Took h h' ⟨.orderDeleted, h.instrumentId_, msg.timestamp.toUInt64, .deleteOrder msg⟩ :=
  took_bind (fun cancelled : Bool => cancelled) hr

/-- A replace message is reported whatever the book answers. -/
theorem replaced_took {msg : Itch.ReplaceOrderMessage}
    (hr : h.processReplaceOrder msg = some h') :
    Took h h' ⟨.orderReplaced, h.instrumentId_, msg.timestamp.toUInt64, .replaceOrder msg⟩ := by
  obtain ⟨⟨cancelled, book⟩, _, hr⟩ := Option.bind_eq_some_iff.mp hr
  rw [← Option.some.inj hr]
  exact ⟨rfl, rfl, rfl, .inr ⟨rfl, rfl⟩⟩

theorem traded_took {msg : Itch.TradeMessage} (hr : h.processTrade msg = some h') :
    Took h h' ⟨.trade, h.instrumentId_, msg.timestamp.toUInt64, .trade msg⟩ := by
  rw [← Option.some.inj hr]
  exact ⟨rfl, rfl, rfl, .inr ⟨rfl, rfl⟩⟩

/-- A message that was dispatched was refused with nothing done, or taken. -/
theorem dispatch_cases {M : Type} {msg : Option M} {process : M → Option (MarketDataHandler C)}
    {ok : Bool} {meaning : M → MarketDataEvent}
    (hprocess : ∀ m h', process m = some h' → Took h h' (meaning m))
    (hr : h.dispatch msg process = some (ok, h')) :
    (ok = false ∧ h' = h) ∨
      (ok = true ∧ ∃ event, msg.map meaning = some event ∧ Took h h' event) := by
  unfold dispatch at hr
  cases msg with
  | none =>
      obtain ⟨rfl, rfl⟩ := Prod.mk.inj (Option.some.inj hr)
      exact .inl ⟨rfl, rfl⟩
  | some m =>
      obtain ⟨h'', hp, heq⟩ := Option.map_eq_some_iff.mp hr
      obtain ⟨rfl, rfl⟩ := Prod.mk.inj heq
      exact .inr ⟨rfl, meaning m, rfl, hprocess m h'' hp⟩

theorem processMessage_counted {data : List UInt8} (hlen : ¬ data.length < 3) {ok : Bool}
    (hr : h.processMessage (some data) = some (ok, h')) :
    (ok = false ∧ h' = { h with totalMessages_ := h.totalMessages_ + 1 }) ∨
      (ok = true ∧ ∃ event, eventOf h.instrumentId_ data = some event ∧
        Took { h with totalMessages_ := h.totalMessages_ + 1 } h' event) := by
  unfold processMessage at hr
  dsimp only at hr
  rw [if_neg hlen] at hr
  unfold eventOf
  dsimp only
  split_ifs at hr ⊢
  · exact dispatch_cases (fun _ _ => added_took) hr
  · exact dispatch_cases (fun _ _ => executed_took) hr
  · exact dispatch_cases (fun _ _ => cancelled_took) hr
  · exact dispatch_cases (fun _ _ => deleted_took) hr
  · exact dispatch_cases (fun _ _ => replaced_took) hr
  · exact dispatch_cases (fun _ _ => traded_took) hr
  · obtain ⟨rfl, rfl⟩ := Prod.mk.inj (Option.some.inj hr)
    exact .inl ⟨rfl, rfl⟩

/-- What any call to `process_message` does to the counters and the callbacks. -/
structure Handled (h h' : MarketDataHandler C) (data : Option (List UInt8)) : Prop where
  callbacks : h'.callbacks_ = h.callbacks_
  instrument : h'.instrumentId_ = h.instrumentId_
  total : h'.totalMessages_ = h.totalMessages_ + if isCounted data then 1 else 0
  fired : Silent h h' ∨ ∃ bytes event, data = some bytes ∧ isCounted data ∧
    eventOf h.instrumentId_ bytes = some event ∧ NotifiesOf h h' event

theorem processMessage_handled {ok : Bool} (hr : h.processMessage data = some (ok, h')) :
    Handled h h' data ∧ (ok = false → h'.orderBook_ = h.orderBook_ ∧ Silent h h') := by
  have hsame : isCounted data = false → (ok, h') = (false, h) →
      Handled h h' data ∧ (ok = false → h'.orderBook_ = h.orderBook_ ∧ Silent h h') := by
    intro hno heq
    obtain ⟨rfl, rfl⟩ := Prod.mk.inj heq
    refine ⟨⟨rfl, rfl, ?_, .inl ⟨rfl, rfl⟩⟩, fun _ => ⟨rfl, rfl, rfl⟩⟩
    rw [hno, if_neg (by decide), UInt64.add_zero]
  cases data with
  | none => exact hsame rfl (Option.some.inj hr).symm
  | some data =>
      by_cases hlen : data.length < 3
      · have hno : isCounted (some data) = false := by
          simp [isCounted, hlen]
        unfold processMessage at hr
        dsimp only at hr
        rw [if_pos hlen] at hr
        exact hsame hno (Option.some.inj hr).symm
      · have hyes : isCounted (some data) = true := by
          simp [isCounted, Nat.not_lt.mp hlen]
        rcases processMessage_counted hlen hr with ⟨rfl, rfl⟩ | ⟨rfl, event, hevent, htook⟩
        · refine ⟨⟨rfl, rfl, ?_, .inl ⟨rfl, rfl⟩⟩, fun _ => ⟨rfl, rfl, rfl⟩⟩
          rw [hyes, if_pos rfl]
        · refine ⟨⟨htook.callbacks, htook.instrument, ?_, ?_⟩, fun hfalse => by cases hfalse⟩
          · rw [hyes, if_pos rfl]
            exact htook.total
          · rcases htook.fired with hsilent | hnotifies
            · exact .inl hsilent
            · exact .inr ⟨data, event, rfl, hyes, hevent, hnotifies⟩

/-! ## All messages -/

section Feed

variable {instrumentId : UInt32} {callbacks : List C} {buffers : List (Option (List UInt8))}
  {reported : List (List UInt8)} {events : List MarketDataEvent}

theorem registered (h : MarketDataHandler C) (callbacks : List C) :
    callbacks.foldl registerCallback h = { h with callbacks_ := h.callbacks_ ++ callbacks } := by
  induction callbacks generalizing h with
  | nil =>
      rw [List.foldl_nil, List.append_nil]
  | cons callback callbacks ih =>
      rw [List.foldl_cons, ih, registerCallback]
      simp

theorem subscribed_eq (instrumentId : UInt32) (callbacks : List C) :
    subscribed instrumentId callbacks = { new C instrumentId with callbacks_ := callbacks } := by
  rw [subscribed, registered]
  rfl

theorem toNat_add_count (total : UInt64) {n : Nat} (hn : total.toNat = n % 2 ^ 64) :
    (total + 1).toNat = (n + 1) % 2 ^ 64 := by
  rw [UInt64.toNat_add, hn, UInt64.toNat_one, Nat.mod_add_mod]

theorem Accounts.step (ha : Accounts instrumentId callbacks buffers h reported events)
    (hcallbacks : h.callbacks_ = callbacks) (hinstrument : h.instrumentId_ = instrumentId)
    (hh : Handled h h' data) :
    ∃ reported' events',
      Accounts instrumentId callbacks (buffers ++ [data]) h' reported' events' := by
  have htotal : h'.totalMessages_.toNat = (buffers ++ [data]).countP isCounted % 2 ^ 64 := by
    rw [hh.total, List.countP_append, List.countP_singleton]
    by_cases hcount : isCounted data
    · rw [if_pos hcount, if_pos hcount]
      exact toNat_add_count _ ha.total
    · rw [if_neg hcount, if_neg hcount, UInt64.add_zero, Nat.add_zero]
      exact ha.total
  have hmore : buffers.countP isCounted ≤ (buffers ++ [data]).countP isCounted := by
    rw [List.countP_append]
    exact Nat.le_add_right _ _
  rcases hh.fired with hsilent | ⟨bytes, event, rfl, hcount, hevent, hinvoked, hprocessed⟩
  · refine ⟨reported, events, htotal, ?_, ha.bounded.trans hmore, ?_, ha.meant, ?_⟩
    · rw [hsilent.2]
      exact ha.processed
    · exact ha.inOrder.trans (List.sublist_append_left buffers [data])
    · rw [hsilent.1]
      exact ha.invoked
  · refine ⟨reported ++ [bytes], events ++ [event], htotal, ?_, ?_, ?_, ?_, ?_⟩
    · rw [hprocessed, List.length_append]
      exact toNat_add_count _ ha.processed
    · rw [List.countP_append, List.countP_singleton, if_pos hcount, List.length_append]
      exact Nat.add_le_add_right ha.bounded 1
    · rw [List.map_append]
      exact ha.inOrder.append (List.Sublist.refl _)
    · rw [hinstrument] at hevent
      exact List.rel_append ha.meant (.cons hevent .nil)
    · rw [hinvoked, ha.invoked, hcallbacks, List.flatMap_append, List.flatMap_singleton]

theorem feed_cases (hr : (subscribed instrumentId callbacks).feed buffers = some h) :
    h.callbacks_ = callbacks ∧ h.instrumentId_ = instrumentId ∧
      ∃ reported events, Accounts instrumentId callbacks buffers h reported events := by
  have hstart : (subscribed instrumentId callbacks).callbacks_ = callbacks ∧
      (subscribed instrumentId callbacks).instrumentId_ = instrumentId ∧
      ∃ reported events, Accounts instrumentId callbacks []
        (subscribed instrumentId callbacks) reported events := by
    rw [subscribed_eq]
    exact ⟨rfl, rfl, [], [], rfl, rfl, Nat.le_refl 0, .slnil, .nil, rfl⟩
  apply Runs.exec_partial (fun buffers (h : MarketDataHandler C) => h.callbacks_ = callbacks ∧
    h.instrumentId_ = instrumentId ∧
    ∃ reported events, Accounts instrumentId callbacks buffers h reported events) hstart ?_ hr
  intro pre data h h' _ _ hpre hstep
  obtain ⟨hcallbacks, hinstrument, reported, events, ha⟩ := hpre
  obtain ⟨⟨ok, h''⟩, hp, rfl⟩ := Option.map_eq_some_iff.mp hstep
  have hhandled := (processMessage_handled hp).1
  exact ⟨hhandled.callbacks.trans hcallbacks, hhandled.instrument.trans hinstrument,
    ha.step hcallbacks hinstrument hhandled⟩

end Feed

/-! ## When the calls return -/

section Returns

theorem returns_of_book (hb : Constructed h.orderBook_.orders_) (call : BookCall)
    {α : Type} {answer : α → Answer} {id : UInt64}
    {made : Option (α × OrderBook)} {after : Option (MarketDataHandler C)}
    (hafter : after.map orderBook_ = made.map Prod.snd)
    (hrun : call.run h.orderBook_ = made.map (Prod.map answer fun b => b))
    (hid : call.probed = some id) :
    (∃ h', after = some h') ↔ HasExit h.orderBook_.orders_ id := by
  have hreturns := OrderBook.exists_run_iff hb call
  rw [hid, hrun] at hreturns
  rw [← Option.isSome_iff_exists] at hreturns ⊢
  rw [Option.isSome_map] at hreturns
  have hsame := congrArg Option.isSome hafter
  rw [Option.isSome_map, Option.isSome_map] at hsame
  rw [hsame, hreturns]
  simp

theorem dispatch_returns_iff {M : Type} {msg : Option M} {ref : M → UInt64}
    {process : M → Option (MarketDataHandler C)}
    (hprocess : ∀ m, (∃ h', process m = some h') ↔ HasExit h.orderBook_.orders_ (ref m)) :
    (∃ r, h.dispatch msg process = some r) ↔
      ∀ id, msg.map ref = some id → HasExit h.orderBook_.orders_ id := by
  cases msg with
  | none => simp [dispatch]
  | some m =>
      rw [dispatch, ← Option.isSome_iff_exists, Option.isSome_map, Option.isSome_iff_exists,
        hprocess m]
      simp

theorem castMessage_short {M : Type} {size : Nat} {read : List UInt8 → M} {data : List UInt8}
    (hlen : data.length < 3) (hsize : 3 ≤ size) : Itch.castMessage size read data = none :=
  if_pos (by omega)

theorem lookup_short {data : List UInt8} (hlen : data.length < 3) : lookup data = none := by
  unfold lookup Itch.AddOrderMessage.cast Itch.ExecuteOrderMessage.cast
    Itch.CancelOrderMessage.cast Itch.DeleteOrderMessage.cast Itch.ReplaceOrderMessage.cast
  simp [castMessage_short hlen]

/-- A message returns exactly when the index offers the id it names an exit. -/
theorem processMessage_returns_iff (hb : Constructed h.orderBook_.orders_) :
    (∃ r, h.processMessage data = some r) ↔
      ∀ id, data.bind lookup = some id → HasExit h.orderBook_.orders_ id := by
  cases data with
  | none => simp [processMessage]
  | some data =>
      rw [Option.bind_some]
      by_cases hlen : data.length < 3
      · rw [lookup_short hlen, processMessage]
        simp [hlen]
      · generalize hcounted : { h with totalMessages_ := h.totalMessages_ + 1 } = h₁
        have hbook : h.orderBook_ = h₁.orderBook_ := by rw [← hcounted]
        rw [hbook] at hb ⊢
        unfold processMessage lookup
        dsimp only
        rw [if_neg hlen, hcounted]
        split_ifs
        · exact dispatch_returns_iff fun msg =>
            returns_of_book hb (.add (some (h₁.orderOf msg))) (processAddOrder_book h₁ msg) rfl rfl
        · exact dispatch_returns_iff fun msg =>
            returns_of_book hb (.execute msg.orderRef msg.executedShares)
              (processExecuteOrder_book h₁ msg) rfl rfl
        · exact dispatch_returns_iff fun msg =>
            returns_of_book hb (.cancel msg.orderRef) (processCancelOrder_book h₁ msg) rfl rfl
        · exact dispatch_returns_iff fun msg =>
            returns_of_book hb (.cancel msg.orderRef) (processDeleteOrder_book h₁ msg) rfl rfl
        · exact dispatch_returns_iff fun msg =>
            returns_of_book hb (.cancel msg.orderRef) (processReplaceOrder_book h₁ msg) rfl rfl
        · cases Itch.TradeMessage.cast data <;> simp [dispatch, processTrade]
        · simp

end Returns

/-- **Buffers of any contents are counted by their size, modulo the width of the
counters; at most so many are reported, in their order and to every callback; and
a refused buffer changes neither the book nor what is reported.** -/
theorem feed_accounts (instrumentId : UInt32) (callbacks : List C)
    (buffers : List (Option (List UInt8))) :
    ((∃ h, (subscribed instrumentId callbacks).feed buffers = some h) ↔
      ∀ pre data, pre ++ [data] <+: buffers →
        ∀ h, (subscribed instrumentId callbacks).feed pre = some h →
          ∀ id, data.bind lookup = some id → HasExit h.orderBook_.orders_ id) ∧
    (∀ h, (subscribed instrumentId callbacks).feed buffers = some h →
      ∃ reported events, Accounts instrumentId callbacks buffers h reported events) ∧
    ∀ pre data, pre ++ [data] <+: buffers →
      ∀ h h', (subscribed instrumentId callbacks).feed pre = some h →
        h.processMessage data = some (false, h') → h'.orderBook_ = h.orderBook_ ∧ Silent h h' := by
  refine ⟨?_, ?_, ?_⟩
  · have hnew : Constructed (subscribed instrumentId callbacks).orderBook_.orders_ := by
      rw [subscribed_eq]
      exact FlatOrderMap.new_constructed FlatOrderMap.kDefaultCapacity
    apply Runs.exec_returns_iff
      (fun _ (h : MarketDataHandler C) => Constructed h.orderBook_.orders_)
      (fun (h : MarketDataHandler C) (data : Option (List UInt8)) =>
        ∀ id, data.bind lookup = some id → HasExit h.orderBook_.orders_ id) hnew
    · intro pre data h h' hb hstep
      obtain ⟨⟨ok, h''⟩, hp, rfl⟩ := Option.map_eq_some_iff.mp hstep
      exact processMessage_constructed hb hp
    · intro pre data h _ hb
      rw [← processMessage_returns_iff hb]
      simp only [Option.map_eq_some_iff]
      constructor
      · intro ⟨h', r, hr, _⟩
        exact ⟨r, hr⟩
      · intro ⟨r, hr⟩
        exact ⟨_, r, hr, rfl⟩
  · intro h hr
    exact (feed_cases hr).2.2
  · intro pre data _ h h' _ hp
    exact (processMessage_handled hp).2 rfl

theorem feed_zeros (h : MarketDataHandler C) (n : Nat) :
    ∃ h', h.feed (List.replicate n (some [0, 0, 0])) = some h' := by
  induction n generalizing h with
  | zero => exact ⟨h, rfl⟩
  | succ n ih =>
      obtain ⟨h', hrest⟩ := ih { h with totalMessages_ := h.totalMessages_ + 1 }
      exact ⟨h', hrest⟩

/-- After `2 ^ 64` buffers of three bytes the counter is back at zero. -/
theorem totalMessages_wraps :
    ¬ ∀ (instrumentId : UInt32) (callbacks : List Unit) (buffers : List (Option (List UInt8)))
      (h : MarketDataHandler Unit), (subscribed instrumentId callbacks).feed buffers = some h →
      h.totalMessages_.toNat = buffers.countP isCounted := by
  intro hall
  have hcount : ∀ n, (List.replicate n (some [0, 0, 0])).countP isCounted = n := by
    intro n
    rw [List.countP_replicate, if_pos (by decide)]
  obtain ⟨h, hr⟩ := feed_zeros (subscribed 1 [()]) (2 ^ 64)
  have hclaimed := hall 1 [()] _ h hr
  rw [hcount] at hclaimed
  have hlt := h.totalMessages_.toNat_lt
  omega

end UltraHft.MarketData.MarketDataHandler
