import UltraHft.Examples.Proofs.Observed
import UltraHft.Examples.Proofs.PortFilter
import UltraHft.MarketData.Proofs.DpdkPacketHandler.UdpFrame
import UltraHft.MarketData.Proofs.MarketDataHandler.FeedHandler
import UltraHft.Tools.Proofs.OpenOrders
import UltraHft.Tools.Proofs.SenderStream

/-!
# From the sender to the order book

The pipeline receives what the sender has sent.  It finds every message of the
stream, and its handler follows the stream in all but the byte order: it counts and
reports every message, and its book shows the orders that are open.
-/

namespace UltraHft.Examples.MarketDataPipelineDemo

open UltraHft.Lib UltraHft.MarketData UltraHft.Tools UltraHft.Tools.ItchSender
open UltraHft.Lib.Reads (eval slice memoryOf drop_slice take_slice)
open MarketDataHandler (requestOf subscribed)
open DpdkPacketHandler

section Received

variable {C : Type} {instrumentId : UInt32} {callbacks : List C} {sent msgs : List SentMessage}
  {msg : SentMessage} {request : Request} {h : MarketDataHandler C} {s : Feed C}
  {bytes : List UInt8}

def told (callbacks : List C) (msgs : List SentMessage) : List (C × MarketDataEventType) :=
  msgs.flatMap fun msg => callbacks.map fun callback => (callback, msg.eventType)

theorem told_unit (msgs : List SentMessage) :
    told [()] msgs = msgs.map fun msg => ((), msg.eventType) :=
  List.map_eq_flatMap.symm

def bookCallsOf (instrumentId : UInt32) (msgs : List SentMessage) : List BookCall :=
  msgs.filterMap (SentMessage.bookCall instrumentId)

/-! ## One message -/

/-- What a feed handler makes of a message that its book affirms. -/
structure Serves (s : Feed C) (msg : SentMessage) (event : MarketDataEvent) (s' : Feed C) :
    Prop where
  book : s'.book.orders = stillOpen s.book.orders msg
  counted : s'.counted = s.counted
  processed : s'.processed = s.processed + 1
  callbacks : s'.callbacks = s.callbacks
  notified : s'.notified = s.notified ++ s.callbacks.map fun callback => (callback, event)

theorem serve_of_affirmed (hasks : msg.Asks instrumentId request)
    (hok : Affirmed s.book.orders msg) : Serves s msg request.event (s.serve request) := by
  obtain ⟨call, event, always⟩ := request
  obtain ⟨hcall, -⟩ := hasks
  dsimp only at hcall
  subst hcall
  cases msg with
  | addOrder orderRef side shares stock price =>
      have hmeaning := readOrder_meaning instrumentId orderRef side shares price
      have hnew : (readOrder instrumentId orderRef side shares price).meaning.id ∉ s.book.ids := by
        rw [hmeaning]
        exact hok
      obtain ⟨hdone, horders⟩ := PriceTime.Book.next_add hnew
      rw [SentMessage.bookCall, Feed.serve_of_affirmed (by rw [BookCall.meaning, hdone]; rfl)]
      refine ⟨?_, rfl, rfl, rfl, rfl⟩
      rw [stillOpen, ← hmeaning]
      exact horders
  | trade orderRef side shares stock price matchNum => exact ⟨rfl, rfl, rfl, rfl, rfl⟩
  | cancel orderRef cancelledShares =>
      have hopen : readId orderRef ∈ s.book.ids := hok
      obtain ⟨hdone, horders⟩ := s.book.next_cancel (readId orderRef)
      rw [decide_eq_true hopen] at hdone
      rw [SentMessage.bookCall, Feed.serve_of_affirmed (by rw [BookCall.meaning, hdone]; rfl)]
      exact ⟨horders, rfl, rfl, rfl, rfl⟩

/-! ## A stream of messages -/

structure Received (instrumentId : UInt32) (callbacks : List C) (sent : List SentMessage)
    (h : MarketDataHandler C) (s : Feed C) : Prop where
  follows : MarketDataHandler.Follows instrumentId h s
  book : s.book.orders = openOrders sent
  counted : s.counted = sent.length
  processed : s.processed = sent.length
  subscribers : s.callbacks = callbacks
  notified : s.notified.map (fun p => (p.1, p.2.eventType)) = told callbacks sent
  calls : ∃ ledger, OrderBook.exec instrumentId (bookCallsOf instrumentId sent) =
    some (h.orderBook_, ledger)

theorem follows_subscribed (instrumentId : UInt32) (callbacks : List C) :
    MarketDataHandler.Follows instrumentId (subscribed instrumentId callbacks)
      { Feed.empty with callbacks := callbacks } := by
  induction callbacks using List.reverseRecOn with
  | nil => exact .new instrumentId
  | append_singleton callbacks callback ih =>
      rw [subscribed, List.foldl_concat]
      exact ⟨ih.instrument, ih.book, congrArg (· ++ [callback]) ih.callbacks, ih.total,
        ih.processed, ih.invoked⟩

theorem Received.nil (instrumentId : UInt32) (callbacks : List C) :
    Received instrumentId callbacks [] (subscribed instrumentId callbacks)
      { Feed.empty with callbacks := callbacks } := by
  have hbook : (subscribed instrumentId callbacks).orderBook_ = .new instrumentId := by
    induction callbacks using List.reverseRecOn with
    | nil => rfl
    | append_singleton callbacks callback ih =>
        rw [subscribed, List.foldl_concat]
        exact ih
  refine ⟨follows_subscribed .., rfl, rfl, rfl, rfl, rfl, [], ?_⟩
  rw [hbook]
  rfl

theorem Received.calls_concat {h' : MarketDataHandler C}
    (hr : Received instrumentId callbacks sent h s) (hasks : msg.Asks instrumentId request)
    (hserve : (h.counting (some bytes)).serve request = some h') :
    ∃ ledger, OrderBook.exec instrumentId (bookCallsOf instrumentId (sent ++ [msg])) =
      some (h'.orderBook_, ledger) := by
  obtain ⟨ledger, hexec⟩ := hr.calls
  obtain ⟨-, hnone, hsome⟩ := MarketDataHandler.serve_book hserve
  rw [hasks.call] at hnone hsome
  rw [bookCallsOf, List.filterMap_append]
  cases hcall : msg.bookCall instrumentId with
  | none =>
      rw [List.filterMap_cons_none hcall, List.filterMap_nil, List.append_nil, hnone hcall]
      exact ⟨ledger, hexec⟩
  | some call =>
      obtain ⟨answer, hrun⟩ := hsome call hcall
      rw [List.filterMap_cons_some hcall, List.filterMap_nil]
      refine ⟨ledger.record call answer, ?_⟩
      rw [OrderBook.exec, Runs.exec_snoc]
      exact (congrArg (Option.bind · _) hexec).trans (OrderBook.step_eq_some hrun)

theorem Received.step (hr : Received instrumentId callbacks sent h s)
    (hrequest : requestOf instrumentId bytes = some request)
    (hasks : msg.Asks instrumentId request) (hok : Affirmed (openOrders sent) msg)
    (hroom : (openOrders sent).length < FlatOrderMap.kDefaultCapacity.toNat)
    (hno : ∀ call ∈ msg.bookCall instrumentId, ¬ h.orderBook_.Crossing call) :
    ∃ h' s', h.processMessage (some bytes) = some (true, h') ∧
      Received instrumentId callbacks (sent ++ [msg]) h' s' := by
  have hevent := MarketDataHandler.requestOf_instrumentId hrequest
  have hserviceable : ∀ call ∈ request.call,
      OrderBook.Serviceable (h.counting (some bytes)).orderBook_ (s.counting (some bytes)).book
        call := by
    intro call hcall
    rw [hasks.call] at hcall
    refine ⟨?_, hno call hcall⟩
    change s.book.orders.length < _
    rw [hr.book]
    exact hroom
  obtain ⟨h', hserve, hfollows⟩ :=
    (hr.follows.counting (some bytes)).serve hevent hserviceable
  have hserves : Serves (s.counting (some bytes)) msg request.event _ :=
    serve_of_affirmed hasks (by rw [← hr.book] at hok; exact hok)
  refine ⟨h', _, ?_, hfollows, ?_, ?_, ?_, ?_, ?_, ?_⟩
  · rw [MarketDataHandler.processMessage_eq, Option.bind_some, hr.follows.instrument, hrequest]
    dsimp only
    rw [hserve]
    rfl
  · rw [hserves.book, openOrders_concat, ← hr.book]
    rfl
  · have hcounted : MarketDataHandler.isCounted (some bytes) = true := by
      by_contra hno
      rw [MarketDataHandler.requestOf_short (by simpa [MarketDataHandler.isCounted] using hno)]
        at hrequest
      cases hrequest
    rw [hserves.counted, List.length_append, ← hr.counted, Feed.counting, if_pos hcounted]
    rfl
  · rw [hserves.processed, List.length_append, ← hr.processed]
    rfl
  · rw [hserves.callbacks]
    exact hr.subscribers
  · rw [hserves.notified, List.map_append, told, List.flatMap_append, List.flatMap_singleton,
      List.map_map]
    change s.notified.map _ ++ s.callbacks.map _ = _
    rw [hr.notified, hr.subscribers, told, ← hasks.eventType]
    rfl
  · exact hr.calls_concat hasks hserve

theorem Received.feed {buffers : List (List UInt8)}
    (hr : Received instrumentId callbacks sent h s)
    (hpacked : List.Forall₂ (fun msg bytes => ∃ ns, SentMessage.pack ns msg = some bytes) msgs
      buffers)
    (hfits : ∀ msg ∈ msgs, msg.Fits)
    (hok : ∀ pre msg, pre ++ [msg] <+: sent ++ msgs → Affirmed (openOrders pre) msg)
    (hroom : ∀ pre, pre <+: sent ++ msgs →
      (openOrders pre).length < FlatOrderMap.kDefaultCapacity.toNat)
    (hno : OrderBook.NeverCrosses instrumentId (bookCallsOf instrumentId (sent ++ msgs))) :
    ∃ h' s', MarketDataHandler.feed h (buffers.map some) = some h' ∧
      Received instrumentId callbacks (sent ++ msgs) h' s' := by
  induction hpacked generalizing sent h s with
  | nil =>
      rw [List.append_nil]
      exact ⟨h, s, rfl, hr⟩
  | @cons msg bytes msgs buffers hpack _ ih =>
      obtain ⟨ns, hpack⟩ := hpack
      obtain ⟨bytes', request, hpack', -, -, hrequest, hasks⟩ :=
        (hfits msg List.mem_cons_self).packs instrumentId ns
      obtain rfl := Option.some.inj (hpack.symm.trans hpack')
      have hsplit : sent ++ msg :: msgs = sent ++ [msg] ++ msgs := by simp
      rw [hsplit] at hok hroom hno ⊢
      have hprefix : sent ++ [msg] <+: sent ++ [msg] ++ msgs := List.prefix_append _ _
      obtain ⟨h₁, s₁, hprocess, hr₁⟩ := hr.step hrequest hasks (hok _ _ hprefix)
        (hroom sent ((List.prefix_append _ _).trans hprefix)) (by
          intro call hcall
          obtain ⟨ledger, hexec⟩ := hr.calls
          refine hno _ call ?_ _ hexec
          rw [bookCallsOf, bookCallsOf, List.filterMap_append, List.filterMap_append,
            List.filterMap_cons_some hcall, List.filterMap_nil]
          exact List.prefix_append _ _)
      obtain ⟨h₂, s₂, hfeed, hr₂⟩ :=
        ih hr₁ (fun m hm => hfits m (List.mem_cons_of_mem _ hm)) hok hroom hno
      refine ⟨h₂, s₂, ?_, hr₂⟩
      rw [List.map_cons, MarketDataHandler.feed, Runs.exec, hprocess]
      exact hfeed

end Received

/-! ## The whole way -/

section Wire

variable {batch burst : Nat} {first : Draws ⟨batch, burst⟩}
  {steps : List (MainStep ⟨batch, burst⟩)} {m : Main} {filterPort : UInt16} {mbufs : List Mbuf}

/-- A packet buffer that holds a frame to the port carries its payload. -/
theorem payloadOf_frame {mbuf : Mbuf} {f : UdpFrame}
    (hbytes : f.bytes = slice mbuf.memory mbuf.mtod mbuf.pktLen.toUInt16.toNat)
    (hport : filterPort = 0 ∨ Bytes.ofBE ((f.udp.drop 2).take 2) = filterPort.toNat) :
    payloadOf filterPort mbuf = some f.payload := by
  obtain ⟨hlength, hholds⟩ := Reads.eq_slice_iff.mp hbytes
  obtain ⟨-, -, -, -, hudp, hpayload, -⟩ := holds_bytes.mp hholds
  have haccepts := accepts_of_holds hholds
  rw [hlength] at haccepts
  have hshort : f.payload.length < 2 ^ 16 := by
    have hlt := mbuf.pktLen.toUInt16.toNat_lt
    rw [length_bytes] at hlength
    omega
  have hn : (UInt16.ofNat f.payload.length).toNat = f.payload.length :=
    UInt16.toNat_ofNat_of_lt' hshort
  have hslot : slice mbuf.memory (mbuf.mtod + f.udpOffset) 8 = f.udp := by
    rw [← f.udp_length]
    exact hudp
  have hlow : 34 ≤ f.udpOffset := by
    have hihl := f.ipv4_length
    have hfive := f.five_le
    unfold FrameParts.udpOffset FrameParts.ipv4Offset
    omega
  have hend : f.udpOffset + 8 ≤ mbuf.pktLen.toUInt16.toNat := by
    rw [← hlength, length_bytes, FrameParts.payloadOffset]
    omega
  have hextract : eval mbuf.memory (extractUdpPayload (some mbuf.mtod) mbuf.pktLen.toUInt16) =
      some (some (mbuf.mtod + f.payloadOffset, UInt16.ofNat f.payload.length)) := by
    apply extractUdpPayload_eq_some.mpr
    refine ⟨haccepts, ?_, ?_⟩
    · rw [udpOffset_eq hholds]
      rfl
    · rw [udpLen_eq hholds, hn, Nat.add_comm]
  have hslice : slice mbuf.memory (mbuf.mtod + f.payloadOffset)
      (UInt16.ofNat f.payload.length).toNat = f.payload := by
    rw [hn]
    exact hpayload
  have hfound : eval mbuf.memory (packetPayload filterPort mbuf.mtod mbuf.pktLen.toUInt16) =
      some (some (mbuf.mtod + f.payloadOffset, UInt16.ofNat f.payload.length)) := by
    simp only [packetPayload, Reads.eval_bind, Reads.eval_ite, Reads.eval_pure]
    by_cases hfilter : filterPort = 0
    · simp [hfilter, hextract]
    · have hport' : eval mbuf.memory (udpDstPort mbuf.mtod mbuf.pktLen.toUInt16) =
          some filterPort := by
        rw [eval_udpDstPort (by omega) (by rw [udpOffset_eq hholds]; omega)]
        congr 1
        rw [← UInt16.toNat_inj, ← hport.resolve_left hfilter, udpOffset_eq hholds, be16At_mem,
          be16_toNat, ← hslot, drop_slice, take_slice (by decide), Nat.add_assoc mbuf.mtod]
        rfl
      simp [hfilter, hextract, hport']
  rw [payloadOf, hfound]
  exact congrArg some hslice

theorem messagesOf_datagrams (hkeeps : Keeps batch burst (drawn first steps) m)
    (hbatch : 0 < batch) :
    ∃ s, Sender.new.generate ((drawn first steps).take m.datagrams.length).flatten =
      some (s, m.datagrams.flatMap messagesOf) := by
  obtain ⟨s, groups, hgenerate, hlength, hsizes, hdelivers⟩ := hkeeps.delivers
  have hgroups : m.datagrams.map messagesOf = groups := by
    apply List.ext_getElem?
    intro k
    rw [List.getElem?_map]
    cases hk : m.datagrams[k]? with
    | none =>
        have hle := List.getElem?_eq_none_iff.mp hk
        rw [Option.map_none, List.getElem?_eq_none (by omega)]
    | some datagram =>
        obtain ⟨g, hg, hdelivered⟩ := hdelivers k datagram hk
        have hne : g ≠ [] := by
          intro hnil
          have hsize := hsizes g (List.mem_of_getElem? hg)
          rw [hnil, List.length_nil] at hsize
          omega
        rw [hg, Option.map_some, messagesOf, hdelivered.messages, Option.getD_some, if_neg hne]
  refine ⟨s, ?_⟩
  rw [List.flatMap, hgroups]
  exact hgenerate

/-- **The pipeline follows the sender in all but the byte order.** Among the received
packets those for the demo carry the datagrams, wherever the sender was left: then the
handler returns from every message, counts and reports each one once and in order, and
its book shows the orders that are open, with the integers read from the other end.
While the sender drops none, these are the orders in its deque. -/
theorem pipeline_follows_sender (batch burst : Nat) (first : Draws ⟨batch, burst⟩)
    (steps : List (MainStep ⟨batch, burst⟩)) (m : Main) (filterPort : UInt16)
    (mbufs : List Mbuf) (hbatch : 0 < batch)
    (hrun : Main.run ⟨batch, burst⟩ first steps = some m)
    (hwire : mbufs.filterMap (payloadOf filterPort) = m.datagrams)
    (hfew : (added (Sender.new.generateMessages (sentChoices first steps m)).2).length <
      2 ^ 32 - 1)
    (hroom : ∀ pre, pre <+: (Sender.new.generateMessages (sentChoices first steps m)).2 →
      (openOrders pre).length < FlatOrderMap.kDefaultCapacity.toNat)
    (hno : OrderBook.NeverCrosses 1
      (bookCallsOf 1 (Sender.new.generateMessages (sentChoices first steps m)).2)) :
    ∃ h book messages, messages = (mbufs.filterMap (payloadOf filterPort)).flatMap messagesOf ∧
      handlerAfter messages = some h ∧
      counted messages = (sentChoices first steps m).length ∧
      fired messages = (sentChoices first steps m).length ∧
      h.invoked.map (fun p => p.2.eventType) =
        (Sender.new.generateMessages (sentChoices first steps m)).2.map SentMessage.eventType ∧
      h.orderBook_.Shows book ∧
      book.orders = openOrders (Sender.new.generateMessages (sentChoices first steps m)).2 ∧
      (NeverEvicts (sentChoices first steps m) →
        book.orders.map (fun o => (o.id, o.left)) =
          (Sender.new.generateMessages (sentChoices first steps m)).1.liveOrders.map readLive) := by
  have hkeeps := Keeps.run hrun
  obtain ⟨s, hgenerate⟩ := messagesOf_datagrams hkeeps hbatch
  obtain ⟨-, hpacked⟩ := Sender.generate_some hgenerate
  have hfits := (Sender.inRange_new.generateMessages (sentChoices first steps m)).1
  obtain ⟨h, feed, hfeed, hreceived⟩ := (Received.nil 1 [()]).feed hpacked hfits
    (fun pre msg hpre => affirmed_generateMessages hfew hpre) hroom hno
  rw [List.nil_append] at hreceived
  have hcount : (m.datagrams.flatMap messagesOf).length = (sentChoices first steps m).length := by
    rw [← hpacked.length_eq, Sender.length_generateMessages]
    rfl
  have hinvoked : h.invoked.map (fun p => p.2.eventType) =
      (Sender.new.generateMessages (sentChoices first steps m)).2.map SentMessage.eventType := by
    have hnotified := congrArg (List.map Prod.snd) hreceived.notified
    rw [List.map_map, told_unit, List.map_map] at hnotified
    rw [hreceived.follows.invoked]
    exact hnotified
  refine ⟨h, feed.book, _, rfl, ?_, ?_, ?_, hinvoked, hreceived.follows.book.shows, hreceived.book,
    ?_⟩
  · rw [hwire]
    exact hfeed
  · rw [hwire, ← hcount]
    apply List.countP_eq_length.mpr
    intro bytes hbytes
    obtain ⟨r, hr, -, hlengths⟩ := Sender.inRange_new.generate
      ((drawn first steps).take m.datagrams.length).flatten
    obtain rfl := Option.some.inj (hgenerate.symm.trans hr)
    have hlow := (hlengths bytes hbytes).1
    exact decide_eq_true (Nat.le_trans (by decide) hlow)
  · rw [fired, hwire, show handlerAfter _ = some h from hfeed, Option.elim_some,
      ← List.length_map (f := fun p => p.2.eventType), hinvoked, List.length_map,
      Sender.length_generateMessages]
  · intro hnever
    rw [hreceived.book]
    exact openOrders_eq_liveOrders hnever hfew

def frameOf (payload : List UInt8) (h : payload.length < 65000) : UdpFrame where
  addresses := List.replicate 12 0
  tag := .untagged
  ihl := 5
  ipv4 := [0x45, 0, 0, 0, 0, 0, 0, 0, 64, 17, 0, 0, 10, 0, 0, 1, 10, 0, 0, 2]
  udp := [0, 80, 0x30, 0x0C] ++ (Bytes.toBE 2 (8 + payload.length) ++ [0, 0])
  payload := payload
  padding := []
  addresses_length := rfl
  five_le := by decide
  le_fifteen := by decide
  ipv4_length := rfl
  version_ihl := rfl
  protocol := rfl
  udp_length := by simp
  length_field := by
    have hdrop : ([0, 80, 0x30, 0x0C] ++ (Bytes.toBE 2 (8 + payload.length) ++ [0, 0])).drop 4 =
        Bytes.toBE 2 (8 + payload.length) ++ [0, 0] := rfl
    rw [hdrop, List.take_left' Bytes.length_toBE, Bytes.ofBE_toBE (by omega)]

def mbufOf (payload : List UInt8) (h : payload.length < 65000) : Mbuf where
  handle := 0
  mtod := 0
  pktLen := UInt32.ofNat (frameOf payload h).bytes.length
  memory := memoryOf (frameOf payload h).bytes

theorem payloadOf_mbufOf (payload : List UInt8) (h : payload.length < 65000) :
    payloadOf 12300 (mbufOf payload h) = some payload := by
  have hlength : (frameOf payload h).bytes.length < 2 ^ 16 := by
    rw [length_bytes]
    change 42 + payload.length + 0 < 2 ^ 16
    omega
  have hlen : (mbufOf payload h).pktLen.toUInt16.toNat = (frameOf payload h).bytes.length := by
    rw [UInt32.toNat_toUInt16]
    change (UInt32.ofNat _).toNat % 2 ^ 16 = _
    rw [UInt32.toNat_ofNat_of_lt' (hlength.trans (by decide)), Nat.mod_eq_of_lt hlength]
  apply payloadOf_frame (f := frameOf payload h)
  · rw [hlen]
    exact (Reads.holds_memoryOf _).symm
  · exact .inr rfl

/-- Three orders are added, of which the first is cancelled; two datagrams. -/
theorem pipeline_follows_sender_twoBursts : ∃ m, ∃ mbufs : List Mbuf, ∃ h book,
    Main.run ⟨2, 1⟩ twoAdds twoBursts = some m ∧
      mbufs.filterMap (payloadOf 12300) = m.datagrams ∧
      handlerAfter ((mbufs.filterMap (payloadOf 12300)).flatMap messagesOf) = some h ∧
      h.orderBook_.Shows book ∧
      book.orders = openOrders (Sender.new.generateMessages
        [adding, adding, cancelling, adding]).2 := by
  obtain ⟨m, hrun, hlengths⟩ := Option.map_eq_some_iff.mp
    (show (Main.run ⟨2, 1⟩ twoAdds twoBursts).map (fun m => m.datagrams.map List.length) =
      some [106, 85] from by decide)
  obtain ⟨d₁, d₂, hdatagrams⟩ : ∃ d₁ d₂, m.datagrams = [d₁, d₂] := by
    apply List.length_eq_two.mp
    rw [← List.length_map, hlengths]
    rfl
  rw [hdatagrams] at hlengths
  obtain ⟨hd₁, hd₂⟩ : d₁.length = 106 ∧ d₂.length = 85 := by simpa using hlengths
  have hchoices : sentChoices twoAdds twoBursts m = [adding, adding, cancelling, adding] := by
    rw [sentChoices, hdatagrams]
    rfl
  have hwire : [mbufOf d₁ (by omega), mbufOf d₂ (by omega)].filterMap (payloadOf 12300) =
      m.datagrams := by
    rw [hdatagrams]
    simp [payloadOf_mbufOf]
  have hcalls : (bookCallsOf 1 (Sender.new.generateMessages
      [adding, adding, cancelling, adding]).2).length = 4 := by decide
  have hfollows := pipeline_follows_sender 2 1 twoAdds twoBursts m 12300 _ (by decide) hrun hwire
  rw [hchoices] at hfollows
  obtain ⟨h, book, messages, rfl, hafter, -, -, -, hshows, horders, -⟩ := hfollows (by decide)
    (fun pre hpre => ((length_openOrders_le pre).trans hpre.length_le).trans_lt (by decide))
    (OrderBook.neverCrosses_of_distinctSlots 1
      (OrderBook.leavesRoom_of_length (by rw [hcalls]; decide)) (by decide))
  exact ⟨m, _, h, book, hrun, hwire, hafter, hshows, horders⟩

end Wire

end UltraHft.Examples.MarketDataPipelineDemo
