import UltraHft.MarketData.Proofs.MarketDataHandler.Requests
import UltraHft.Tools.Proofs.Generate
import UltraHft.Tools.Proofs.WireFormat

/-!
# What the messages of the stream ask for

Every message that the generator makes can be packed, and the handler reads a
request off its bytes: the one that was meant, with the bytes of every integer
reversed.
-/

namespace UltraHft.Tools.ItchSender

open UltraHft.Lib UltraHft.MarketData

/-- Every value fits its format, and the side is one of the two. -/
def SentMessage.Fits : SentMessage → Prop
  | addOrder orderRef side shares _ price =>
      orderRef < 2 ^ 64 ∧ (side = "B" ∨ side = "S") ∧ shares < 2 ^ 32 ∧ price < 2 ^ 64
  | trade orderRef side shares _ price matchNum =>
      orderRef < 2 ^ 64 ∧ (side = "B" ∨ side = "S") ∧ shares < 2 ^ 32 ∧ price < 2 ^ 64 ∧
        matchNum < 2 ^ 32
  | cancel orderRef cancelledShares => orderRef < 2 ^ 64 ∧ cancelledShares < 2 ^ 32

/-! ## What is asked for -/

def readSide (side : String) : Side := if side = "B" then .buy else .sell

def readId (orderRef : Nat) : UInt64 := UInt64.ofNat (Bytes.swap 8 orderRef)

def readOrder (instrumentId : UInt32) (orderRef : Nat) (side : String) (shares price : Nat) :
    Order :=
  Order.make (readId orderRef) instrumentId (readSide side) (UInt64.ofNat (Bytes.swap 8 price))
    (UInt32.ofNat (Bytes.swap 4 shares))

def SentMessage.bookCall (instrumentId : UInt32) : SentMessage → Option BookCall
  | addOrder orderRef side shares _ price =>
      some (.add (some (readOrder instrumentId orderRef side shares price)))
  | trade .. => none
  | cancel orderRef _ => some (.cancel (readId orderRef))

def SentMessage.eventType : SentMessage → MarketDataEventType
  | addOrder .. => .orderAdded
  | trade .. => .trade
  | cancel .. => .orderCancelled

/-- The request is the one that the message was sent for. -/
structure SentMessage.Asks (instrumentId : UInt32) (msg : SentMessage) (request : Request) :
    Prop where
  call : request.call = msg.bookCall instrumentId
  eventType : request.event.eventType = msg.eventType

section Pack

variable {ns orderRef shares price matchNum : Nat} {side stock : String} {s : UInt8}

theorem makeTrade_eq (href : orderRef < 2 ^ 64) (hshares : shares < 2 ^ 32)
    (hprice : price < 2 ^ 64) (hmatch : matchNum < 2 ^ 32) (hside : encode side = [s]) :
    makeTrade ns orderRef side shares stock price matchNum =
      some (layout 'P' ns (Bytes.toBE 8 orderRef ++ (s :: (Bytes.toBE 4 shares ++
        (stockBytes stock ++ (Bytes.toBE 8 price ++
          (Bytes.toBE 4 matchNum ++ ['0'.toUInt8]))))))) := by
  unfold makeTrade packOrder
  rw [hside, packUnsigned_of_lt (w := 8) (by omega), packUnsigned_of_lt (w := 4) (by omega),
    packUnsigned_of_lt (w := 8) (by omega), packUnsigned_of_lt (w := 4) (by omega)]
  have hstock := length_stockBytes stock
  dsimp only [packChar, Option.bind_eq_bind, Option.bind_some]
  rw [← stockBytes, withHeader_eq]
  · simp
  · simp [hstock]

theorem encode_side (h : side = "B" ∨ side = "S") : ∃ s, encode side = [s] ∧
    MarketDataHandler.sideOf s = readSide side := by
  rcases h with rfl | rfl
  · exact ⟨'B'.toUInt8, by decide, by decide⟩
  · exact ⟨'S'.toUInt8, by decide, by decide⟩

end Pack

/-- A message that fits is packed in 20 to 42 bytes, from which the handler reads
the request. -/
theorem SentMessage.Fits.packs {msg : SentMessage} (h : msg.Fits) (instrumentId : UInt32)
    (ns : Nat) :
    ∃ bytes request, msg.pack ns = some bytes ∧ 20 ≤ bytes.length ∧ bytes.length ≤ 42 ∧
      MarketDataHandler.requestOf instrumentId bytes = some request ∧
      msg.Asks instrumentId request := by
  cases msg with
  | addOrder orderRef side shares stock price =>
      obtain ⟨href, hside, hshares, hprice⟩ := h
      obtain ⟨s, hs, hread⟩ := encode_side hside
      have hstock := length_stockBytes stock
      obtain ⟨m, hcast, hmref, hmside, hmshares, hmprice⟩ :=
        cast_add ns orderRef s shares price hstock
      have htype : (Itch.MessageHeader.read (layout 'A' ns
          (addBody orderRef s shares (stockBytes stock) price))).messageType =
          Itch.msgAddOrder := u8_type
      have hlength : (layout 'A' ns
          (addBody orderRef s shares (stockBytes stock) price)).length = 41 := by
        simp [length_layout, addBody, hstock]
      refine ⟨_, MarketDataHandler.addRequest instrumentId m,
        makeAddOrder_eq href hshares hprice hs, by omega, by omega, ?_, ?_, rfl⟩
      · rw [MarketDataHandler.requestOf, htype, if_pos (.inl rfl), hcast]
        rfl
      · rw [SentMessage.bookCall, readOrder, readId, ← hread, ← hmref, ← hmside, ← hmshares,
          ← hmprice]
        rfl
  | trade orderRef side shares stock price matchNum =>
      obtain ⟨href, hside, hshares, hprice, hmatch⟩ := h
      obtain ⟨s, hs, -⟩ := encode_side hside
      have hstock := length_stockBytes stock
      have hmake : makeTrade ns orderRef side shares stock price matchNum = _ :=
        makeTrade_eq href hshares hprice hmatch hs
      generalize hbody : Bytes.toBE 8 orderRef ++ (s :: (Bytes.toBE 4 shares ++
        (stockBytes stock ++ (Bytes.toBE 8 price ++
          (Bytes.toBE 4 matchNum ++ ['0'.toUInt8]))))) = body at hmake
      have hlength : (layout 'P' ns body).length = 42 := by
        simp [length_layout, ← hbody, hstock]
      have htype : (Itch.MessageHeader.read (layout 'P' ns body)).messageType =
          Itch.msgTrade := u8_type
      obtain ⟨m, hcast⟩ : ∃ m, Itch.TradeMessage.cast (layout 'P' ns body) = some m := by
        unfold Itch.TradeMessage.cast Itch.castMessage
        rw [if_neg (by omega)]
        exact ⟨_, rfl⟩
      refine ⟨_, MarketDataHandler.tradeRequest instrumentId m, hmake, by omega, by omega, ?_,
        rfl, rfl⟩
      rw [MarketDataHandler.requestOf, htype, hcast]
      rfl
  | cancel orderRef cancelledShares =>
      obtain ⟨href, hshares⟩ := h
      obtain ⟨m, hcast, hmref, -⟩ := cast_cancel ns orderRef cancelledShares
      have htype : (Itch.MessageHeader.read (layout 'X' ns
          (Bytes.toBE 8 orderRef ++ Bytes.toBE 4 cancelledShares))).messageType =
          Itch.msgCancelOrder := u8_type
      have hlength : (layout 'X' ns
          (Bytes.toBE 8 orderRef ++ Bytes.toBE 4 cancelledShares)).length = 20 := by
        simp [length_layout]
      refine ⟨_, MarketDataHandler.cancelRequest instrumentId m, makeCancel_eq href hshares,
        by omega, by omega, ?_, ?_, rfl⟩
      · rw [MarketDataHandler.requestOf, htype, hcast]
        rfl
      · rw [SentMessage.bookCall, readId, ← hmref]
        rfl

/-! ## What the generator makes fits -/

/-- The references of 32 bits, and shares in the range of the generator. -/
structure Sender.InRange (s : Sender) : Prop where
  next : s.nextOrderRef < 2 ^ 32
  orders : ∀ x ∈ s.liveOrders, x.1 < 2 ^ 32 ∧ x.2 ≤ 10000

namespace Sender

variable {s : Sender}

theorem inRange_new : InRange .new :=
  ⟨by decide, fun _ hx => by cases hx⟩

theorem newOrderRef_lt (s : Sender) : s.newOrderRef.2.nextOrderRef < 2 ^ 32 := by
  have hmask : (s.nextOrderRef + 1) &&& 0xFFFFFFFF ≤ 0xFFFFFFFF := Nat.and_le_right
  unfold newOrderRef
  dsimp only
  split_ifs <;> omega

theorem side_eq (sell : Bool) : (if sell then "S" else "B") = "B" ∨
    (if sell then "S" else "B") = "S" := by
  cases sell
  · exact .inl rfl
  · exact .inr rfl

theorem InRange.drawn (h : s.InRange) {c : Choices} (hadds : ¬ s.Adds c) :
    (s.drawn c).1 < 2 ^ 32 ∧ (s.drawn c).2 ≤ 10000 := by
  have hpos := position_lt hadds
  apply h.orders
  rw [← getElem_eq_drawn hpos]
  exact List.getElem_mem hpos

theorem InRange.iteration (h : s.InRange) (c : Choices) :
    (s.iteration c).2.Fits ∧ (s.iteration c).1.InRange := by
  have hnext := h.next
  have hshares := c.shares_range
  have hprice := c.price_range
  have hadded : ∀ kept : List (Nat × Nat), (∀ x ∈ kept, x ∈ s.liveOrders) →
      InRange { liveOrders := kept ++ [(s.nextOrderRef, c.shares)],
                nextOrderRef := s.newOrderRef.2.nextOrderRef } := by
    intro kept hkept
    refine ⟨s.newOrderRef_lt, ?_⟩
    intro x hx
    rcases List.mem_append.mp hx with hx | hx
    · exact h.orders x (hkept x hx)
    · rw [List.mem_singleton.mp hx]
      exact ⟨hnext, hshares.2⟩
  by_cases hadds : s.Adds c
  · have hfits : (s.addMessage c).Fits := ⟨by omega, side_eq c.sell, by omega, by omega⟩
    by_cases hevicts : s.Evicts c
    · rw [iteration_of_evicts hevicts]
      exact ⟨hfits, hadded _ fun x hx => List.mem_of_mem_tail hx⟩
    · rw [iteration_of_not_evicts hadds hevicts]
      exact ⟨hfits, hadded _ fun x hx => hx⟩
  · obtain ⟨href, hdrawn⟩ := h.drawn hadds
    by_cases hcancels : Cancels c
    · obtain ⟨before, after, hsplit, hiter⟩ := iteration_of_cancels hadds hcancels
      rw [hiter]
      refine ⟨⟨by omega, by omega⟩, hnext, ?_⟩
      intro x hx
      apply h.orders
      rw [hsplit]
      simp at hx ⊢
      tauto
    · have hmatch := c.matchNum_range
      rw [iteration_of_trades hadds hcancels]
      exact ⟨⟨by omega, side_eq c.sell, by omega, by omega, by omega⟩, h⟩

theorem InRange.generateMessages (h : s.InRange) (cs : List Choices) :
    (∀ msg ∈ (s.generateMessages cs).2, msg.Fits) ∧ (s.generateMessages cs).1.InRange := by
  induction cs generalizing s with
  | nil => exact ⟨fun _ hmsg => (by cases hmsg), h⟩
  | cons c cs ih =>
      obtain ⟨hfits, hnext⟩ := h.iteration c
      obtain ⟨hrest, hlast⟩ := ih hnext
      exact ⟨List.forall_mem_cons.mpr ⟨hfits, hrest⟩, hlast⟩

end Sender

end UltraHft.Tools.ItchSender
