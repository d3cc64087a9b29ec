import UltraHft.MarketData.Proofs.MarketDataHandler.Requests
import UltraHft.MarketData.Proofs.OrderBook.PriceTime

/-!
# The handler as a feed handler

What the handler is for: a price-time book that follows the requests of the
feed, and subscribers that are told what the book confirmed.  Registrations,
messages and resets in any order are answered as the feed handler answers them,
as long as the calls to the current book break no probe path.
-/

namespace UltraHft.MarketData

open UltraHft.Lib

def affirmed : PriceTime.Answer → Bool
  | .done ok => ok
  | .executed qty => decide (0 < qty)

theorem affirmed_meaning (answer : Answer) : affirmed answer.meaning = answer.affirms := by
  cases answer with
  | added ok => rfl
  | cancelled ok => rfl
  | executed qty =>
      unfold affirmed Answer.meaning Answer.affirms
      exact decide_eq_decide.mpr (UInt32.lt_iff_toNat_lt (a := 0)).symm

/-- A feed handler.  The counters count from the last reset. -/
structure Feed (C : Type) where
  book : PriceTime.Book UInt64 Nat
  callbacks : List C
  counted : Nat
  processed : Nat
  notified : List (C × MarketDataEvent)

namespace Feed

variable {C : Type}

def empty : Feed C := ⟨.empty, [], 0, 0, []⟩

/-- All subscribers are told, in the order of their registration. -/
def notify (s : Feed C) (event : MarketDataEvent) : Feed C :=
  { s with processed := s.processed + 1,
           notified := s.notified ++ s.callbacks.map fun callback => (callback, event) }

def serve (s : Feed C) (request : Request) : Feed C :=
  match request.call with
  | none => s.notify request.event
  | some call =>
      let r := s.book.next call.meaning
      let s := { s with book := r.2 }
      if request.always || affirmed r.1 then s.notify request.event else s

def counting (s : Feed C) (data : Option (List UInt8)) : Feed C :=
  { s with counted := s.counted + if MarketDataHandler.isCounted data then 1 else 0 }

/-- Only messages are answered, by whether they could be read. -/
def next (instrumentId : UInt32) (s : Feed C) : HandlerCall C → Option Bool × Feed C
  | .registerCallback callback => (none, { s with callbacks := s.callbacks ++ [callback] })
  | .processMessage data =>
      match data.bind (MarketDataHandler.requestOf instrumentId) with
      | none => (some false, s.counting data)
      | some request => (some true, (s.counting data).serve request)
  | .reset => (none, { s with book := .empty, counted := 0, processed := 0 })

theorem serve_of_affirmed {s : Feed C} {call : BookCall} {event : MarketDataEvent} {always : Bool}
    (h : affirmed (s.book.next call.meaning).1 = true) :
    s.serve ⟨some call, event, always⟩ =
      notify { s with book := (s.book.next call.meaning).2 } event :=
  if_pos (by rw [h, Bool.or_true])

end Feed

namespace MarketDataHandler

variable {C : Type} {h h' : MarketDataHandler C} {s : Feed C} {instrumentId : UInt32}

def respond (h : MarketDataHandler C) :
    HandlerCall C → Option (Option Bool × MarketDataHandler C)
  | .registerCallback callback => some (none, h.registerCallback callback)
  | .processMessage data => (h.processMessage data).map (Prod.map some fun h => h)
  | .reset => some (none, h.reset)

/-! ## One call -/

structure Follows (instrumentId : UInt32) (h : MarketDataHandler C) (s : Feed C) : Prop where
  instrument : h.instrumentId_ = instrumentId
  book : h.orderBook_.Implements s.book
  callbacks : h.callbacks_ = s.callbacks
  total : h.totalMessages_ = UInt64.ofNat s.counted
  processed : h.messagesProcessed_ = UInt64.ofNat s.processed
  invoked : h.invoked = s.notified

/-- The call that the message makes to the book can be serviced. -/
def Manageable (instrumentId : UInt32) (h : MarketDataHandler C) (s : Feed C) :
    HandlerCall C → Prop
  | .processMessage data => ∀ request ∈ data.bind (requestOf instrumentId),
      ∀ call ∈ request.call, OrderBook.Serviceable h.orderBook_ s.book call
  | _ => True

namespace Follows

theorem new (instrumentId : UInt32) : Follows instrumentId (new C instrumentId) .empty :=
  ⟨rfl, ⟨[], OrderBook.Stores.new instrumentId⟩, rfl, rfl, rfl, rfl⟩

theorem counting (hf : Follows instrumentId h s) (data : Option (List UInt8)) :
    Follows instrumentId (h.counting data) (s.counting data) := by
  refine ⟨hf.instrument, hf.book, hf.callbacks, ?_, hf.processed, hf.invoked⟩
  rw [MarketDataHandler.counting, Feed.counting]
  dsimp only
  rw [hf.total, UInt64.ofNat_add]
  by_cases hcount : isCounted data <;> simp [hcount]

theorem notify (hf : Follows instrumentId h s) {event : MarketDataEvent}
    (hevent : event.instrumentId = instrumentId) :
    Follows instrumentId
      (h.fireProcessed event.eventType event.timestampNs event.customData) (s.notify event) := by
  refine ⟨hf.instrument, hf.book, hf.callbacks, hf.total, ?_, ?_⟩
  · change h.messagesProcessed_ + 1 = UInt64.ofNat (s.processed + 1)
    rw [hf.processed, UInt64.ofNat_add]
    rfl
  · change h.invoked ++ h.callbacks_.map _ = s.notified ++ s.callbacks.map _
    rw [hf.invoked, hf.callbacks, hf.instrument, ← hevent]

theorem serve (hf : Follows instrumentId h s) {request : Request}
    (hevent : request.event.instrumentId = instrumentId)
    (hgood : ∀ call ∈ request.call, OrderBook.Serviceable h.orderBook_ s.book call) :
    ∃ h', h.serve request = some h' ∧ Follows instrumentId h' (s.serve request) := by
  obtain ⟨call, event, always⟩ := request
  cases call with
  | none => exact ⟨_, rfl, hf.notify hevent⟩
  | some call =>
      obtain ⟨answer, b', hrun, hanswer, hbook⟩ :=
        OrderBook.run_matches _ _ call hf.book (hgood call rfl)
      have hfires : affirmed (s.book.next call.meaning).1 = answer.affirms := by
        rw [← hanswer, affirmed_meaning]
      have hf' : Follows instrumentId { h with orderBook_ := b' }
          { s with book := (s.book.next call.meaning).2 } :=
        ⟨hf.instrument, hbook, hf.callbacks, hf.total, hf.processed, hf.invoked⟩
      rw [MarketDataHandler.serve, Feed.serve]
      dsimp only at hrun ⊢
      rw [hrun, Option.map_some, hfires]
      refine ⟨_, rfl, ?_⟩
      by_cases hfire : (always || answer.affirms) = true
      · rw [if_pos hfire, if_pos hfire]
        exact hf'.notify hevent
      · rw [if_neg hfire, if_neg hfire]
        exact hf'

end Follows

theorem requestOf_instrumentId {data : List UInt8} {request : Request}
    (h : requestOf instrumentId data = some request) :
    request.event.instrumentId = instrumentId := by
  have hmap : ∀ {M : Type} {msg : Option M} {read : M → Request},
      (∀ m, (read m).event.instrumentId = instrumentId) →
        msg.map read = some request → request.event.instrumentId = instrumentId := by
    intro M msg read hread hmsg
    obtain ⟨m, -, rfl⟩ := Option.map_eq_some_iff.mp hmsg
    exact hread m
  unfold requestOf at h
  dsimp only at h
  split_ifs at h
  · exact hmap (fun _ => rfl) h
  · exact hmap (fun _ => rfl) h
  · exact hmap (fun _ => rfl) h
  · exact hmap (fun _ => rfl) h
  · exact hmap (fun _ => rfl) h
  · exact hmap (fun _ => rfl) h

theorem respond_matches (instrumentId : UInt32) :
    Simulation.Matches (fun (h : MarketDataHandler C) call => h.respond call)
      (Feed.next instrumentId) (fun call => call) (fun answer => answer)
      (Follows instrumentId) (Manageable instrumentId) := by
  intro h s call hf hgood
  cases call with
  | registerCallback callback =>
      refine ⟨none, _, rfl, rfl, hf.instrument, hf.book, ?_, hf.total, hf.processed, hf.invoked⟩
      exact congrArg (· ++ [callback]) hf.callbacks
  | reset =>
      refine ⟨none, _, rfl, rfl, hf.instrument, ⟨[], ?_⟩, hf.callbacks, rfl, rfl, hf.invoked⟩
      exact OrderBook.Stores.new h.instrumentId_
  | processMessage data =>
      dsimp only [respond, Feed.next]
      rw [processMessage_eq, hf.instrument]
      cases hreq : data.bind (requestOf instrumentId) with
      | none => exact ⟨some false, _, rfl, rfl, hf.counting data⟩
      | some request =>
          obtain ⟨bytes, -, hbytes⟩ := Option.bind_eq_some_iff.mp hreq
          obtain ⟨h', hserve, hf'⟩ :=
            (hf.counting data).serve (requestOf_instrumentId hbytes) (hgood request hreq)
          refine ⟨some true, h', ?_, rfl, hf'⟩
          dsimp only
          rw [hserve]
          rfl

/-! ## Runs -/

def requestedCall (instrumentId : UInt32) (data : Option (List UInt8)) : Option BookCall :=
  (data.bind (requestOf instrumentId)).bind Request.call

/-- The calls that a handler has made to its book since the last reset. -/
def bookCalls (instrumentId : UInt32) (calls : List (HandlerCall C)) : List BookCall :=
  calls.foldl (fun made call => match call with
    | .registerCallback _ => made
    | .processMessage data => made ++ (requestedCall instrumentId data).toList
    | .reset => []) []

section BookCalls

variable {calls : List (HandlerCall C)} {call : BookCall} {data : Option (List UInt8)}

theorem bookCalls_register (callback : C) :
    bookCalls instrumentId (calls ++ [.registerCallback callback]) =
      bookCalls instrumentId calls :=
  List.foldl_append

theorem bookCalls_reset : bookCalls instrumentId (calls ++ [.reset]) = [] := List.foldl_append

theorem bookCalls_message : bookCalls instrumentId (calls ++ [.processMessage data]) =
    bookCalls instrumentId calls ++ (requestedCall instrumentId data).toList :=
  List.foldl_append

theorem serve_book {request : Request} (hr : h.serve request = some h') :
    h'.instrumentId_ = h.instrumentId_ ∧
      (request.call = none → h'.orderBook_ = h.orderBook_) ∧
      ∀ call ∈ request.call, ∃ answer, call.run h.orderBook_ = some (answer, h'.orderBook_) := by
  obtain ⟨call, event, always⟩ := request
  cases call with
  | none =>
      obtain rfl := Option.some.inj hr
      exact ⟨rfl, fun _ => rfl, fun call hcall => by cases hcall⟩
  | some call =>
      obtain ⟨⟨answer, book⟩, hrun, rfl⟩ := Option.map_eq_some_iff.mp hr
      dsimp only
      refine ⟨?_, ?_, ?_⟩
      · split_ifs <;> rfl
      · intro hnone
        cases hnone
      · rintro call' hcall
        obtain rfl := Option.some.inj hcall
        refine ⟨answer, hrun.trans ?_⟩
        split_ifs <;> rfl

/-- The book of a handler is what the calls since the last reset have made of a
new one. -/
theorem exec_bookCalls {before : List (Option Bool) × MarketDataHandler C}
    (hrun : Simulation.answers (fun (h : MarketDataHandler C) call => h.respond call)
      (new C instrumentId) calls = some before) :
    before.2.instrumentId_ = instrumentId ∧
      ∃ s, OrderBook.exec instrumentId (bookCalls instrumentId calls) = some s ∧
        s.1 = before.2.orderBook_ := by
  induction calls using List.reverseRecOn generalizing before with
  | nil =>
      rw [← Option.some.inj hrun]
      exact ⟨rfl, _, rfl, rfl⟩
  | append_singleton calls call ih =>
      rw [Simulation.answers_snoc] at hrun
      obtain ⟨⟨given, h⟩, hpre, hlast⟩ := Option.bind_eq_some_iff.mp hrun
      obtain ⟨⟨answer, h'⟩, hstep, rfl⟩ := Option.map_eq_some_iff.mp hlast
      obtain ⟨hinstrument, s, hexec, hbook⟩ := ih hpre
      dsimp only at hinstrument hbook hstep ⊢
      cases call with
      | registerCallback callback =>
          obtain ⟨-, rfl⟩ := Prod.mk.inj (Option.some.inj hstep)
          rw [bookCalls_register]
          exact ⟨hinstrument, s, hexec, hbook⟩
      | reset =>
          obtain ⟨-, rfl⟩ := Prod.mk.inj (Option.some.inj hstep)
          rw [bookCalls_reset, ← hinstrument]
          exact ⟨rfl, _, rfl, rfl⟩
      | processMessage data =>
          rw [bookCalls_message]
          rw [respond, processMessage_eq, hinstrument] at hstep
          cases hreq : data.bind (requestOf instrumentId) with
          | none =>
              rw [hreq] at hstep
              obtain ⟨-, rfl⟩ := Prod.mk.inj (Option.some.inj hstep)
              rw [requestedCall, hreq, Option.bind_none, Option.toList_none, List.append_nil]
              exact ⟨hinstrument, s, hexec, hbook⟩
          | some request =>
              rw [hreq] at hstep
              dsimp only at hstep
              rw [Option.map_map, Option.map_eq_some_iff] at hstep
              obtain ⟨h'', hserve, heq⟩ := hstep
              obtain ⟨-, rfl⟩ := Prod.mk.inj heq
              obtain ⟨hsame, hnone, hsome⟩ := serve_book hserve
              refine ⟨hsame.trans hinstrument, ?_⟩
              rw [requestedCall, hreq, Option.bind_some]
              cases hcall : request.call with
              | none =>
                  rw [Option.toList_none, List.append_nil]
                  exact ⟨s, hexec, hbook.trans (hnone hcall).symm⟩
              | some c =>
                  obtain ⟨answer, hc⟩ := hsome c hcall
                  change c.run h.orderBook_ = _ at hc
                  rw [← hbook] at hc
                  refine ⟨(h''.orderBook_, s.2.record c answer), ?_, rfl⟩
                  rw [Option.toList_some, OrderBook.exec, Runs.exec_snoc,
                    ← OrderBook.exec, hexec]
                  exact OrderBook.step_eq_some hc

theorem trace_book (instrumentId : UInt32) (calls : List (HandlerCall C)) :
    (Simulation.trace (Feed.next instrumentId) (.empty : Feed C) calls).2.book =
      (OrderBook.meant (bookCalls instrumentId calls)).2 := by
  induction calls using List.reverseRecOn with
  | nil => rfl
  | append_singleton calls call ih =>
      rw [Simulation.trace_snoc]
      generalize (Simulation.trace (Feed.next instrumentId) (.empty : Feed C) calls).2 = s at ih
      cases call with
      | registerCallback callback => rw [bookCalls_register]; exact ih
      | reset => rw [bookCalls_reset]; rfl
      | processMessage data =>
          rw [bookCalls_message, requestedCall]
          dsimp only [Feed.next]
          cases hreq : data.bind (requestOf instrumentId) with
          | none =>
              rw [Option.bind_none, Option.toList_none, List.append_nil]
              exact ih
          | some request =>
              obtain ⟨call, event, always⟩ := request
              rw [Option.bind_some]
              dsimp only [Feed.serve]
              cases call with
              | none =>
                  rw [Option.toList_none, List.append_nil]
                  exact ih
              | some call =>
                  rw [Option.toList_some, OrderBook.meant_snoc, ← ih]
                  dsimp only
                  split_ifs <;> rfl

end BookCalls

/-- **A handler is a feed handler in front of a price-time book.** Registrations,
messages of any contents and resets are answered, and leave the counters, the
notifications and the book, as with the feed handler, if the calls to the current
book never break a probe path. -/
theorem respond_follows (instrumentId : UInt32) (calls : List (HandlerCall C))
    (hroom : ∀ pre, pre <+: calls → OrderBook.LeavesRoom (bookCalls instrumentId pre))
    (hno : ∀ pre, pre <+: calls →
      OrderBook.NeverCrosses instrumentId (bookCalls instrumentId pre)) :
    ∃ h, Simulation.answers (fun (h : MarketDataHandler C) call => h.respond call)
        (new C instrumentId) calls =
          some ((Simulation.trace (Feed.next instrumentId) .empty calls).1, h) ∧
      Follows instrumentId h (Simulation.trace (Feed.next instrumentId) .empty calls).2 ∧
      h.orderBook_.Shows (Simulation.trace (Feed.next instrumentId) .empty calls).2.book := by
  obtain ⟨given, h, hrun, hgiven, hf⟩ := (respond_matches instrumentId).answers
    (Follows.new instrumentId) calls fun pre call hpre before hbefore => by
      rw [List.map_id']
      cases call with
      | registerCallback callback => trivial
      | reset => trivial
      | processMessage data =>
          intro request hrequest c hc
          obtain ⟨-, s, hexec, hbook⟩ := exec_bookCalls hbefore
          have hmade : bookCalls instrumentId (pre ++ [.processMessage data]) =
              bookCalls instrumentId pre ++ [c] := by
            rw [bookCalls_message, requestedCall, hrequest, Option.bind_some, hc]
            rfl
          have hlast := List.prefix_rfl (l := bookCalls instrumentId pre ++ [c])
          rw [trace_book, ← hbook]
          have hr := hroom _ hpre
          have hn := hno _ hpre
          rw [hmade] at hr hn
          exact ⟨hr _ c hlast, hn _ c hlast s hexec⟩
  rw [List.map_id'] at hgiven hf
  rw [List.map_id'] at hgiven
  refine ⟨h, by rw [hrun, hgiven], hf, hf.book.shows⟩

def deleteSeven : List UInt8 :=
  Bytes.toLE 2 16 ++ ['D'.toUInt8, 0] ++ Bytes.toLE 4 0 ++ Bytes.toLE 8 7

def sevenTwice : List (HandlerCall Unit) :=
  [.registerCallback (), .processMessage (some addSeven), .processMessage (some [0, 0]),
    .processMessage (some deleteSeven), .processMessage (some deleteSeven), .reset,
    .processMessage (some addSeven)]

theorem respond_follows_sevenTwice : ∃ h : MarketDataHandler Unit,
    Simulation.answers (fun (h : MarketDataHandler Unit) call => h.respond call)
      (new Unit 1) sevenTwice =
        some ([none, some true, some false, some true, some true, none, some true], h) ∧
      h.orderBook_.Shows ⟨[⟨7, .bid, 100, 10⟩], by decide⟩ := by
  have hinits : ∀ pre ∈ sevenTwice.inits, (bookCalls 1 pre).length ≤ 262144 ∧
      OrderBook.DistinctSlots (OrderBook.addedIds (bookCalls 1 pre)) := by decide
  have hroom : ∀ pre, pre <+: sevenTwice → OrderBook.LeavesRoom (bookCalls 1 pre) :=
    fun pre hpre => OrderBook.leavesRoom_of_length (hinits pre ((List.mem_inits _ _).mpr hpre)).1
  obtain ⟨h, hrun, -, hshows⟩ := respond_follows 1 sevenTwice hroom fun pre hpre =>
    OrderBook.neverCrosses_of_distinctSlots 1 (hroom pre hpre)
      (hinits pre ((List.mem_inits _ _).mpr hpre)).2
  exact ⟨h, hrun, hshows⟩

end MarketDataHandler

end UltraHft.MarketData
