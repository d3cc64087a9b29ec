import UltraHft.MarketData.Proofs.MarketDataHandler.Reachable
import UltraHft.Tools.ItchSender

/-!
# What the handler makes of the sender's messages

The sender packs every integer big-endian, and the handler reads it in place on
a little-endian machine.  The layouts agree, so a message is accepted, with the
bytes of each of its integers reversed.
-/

namespace UltraHft.Tools.ItchSender

open UltraHft.Lib UltraHft.MarketData

section Pack

variable {w n ns orderRef shares price : Nat} {side stock : String} {s : UInt8}
  {body : List UInt8}

theorem packUnsigned_of_lt (h : n < 256 ^ w) : packUnsigned w n = some (Bytes.toBE w n) :=
  if_pos ⟨Int.natCast_nonneg n, h⟩

theorem ts_lt : ts ns < 256 ^ 4 := by
  have hle : ts ns ≤ 0xFFFFFFFF := Nat.and_le_right
  omega

def layout (messageType : Char) (ns : Nat) (body : List UInt8) : List UInt8 :=
  Bytes.toBE 2 (8 + body.length) ++ ([messageType.toUInt8] ++
    (Bytes.toBE 1 0 ++ (Bytes.toBE 4 (ts ns) ++ body)))

theorem withHeader_eq (messageType : Char) (hlen : body.length < 65528) :
    withHeader messageType ns body = some (layout messageType ns body) := by
  have htotal : 2 + 1 + 1 + 4 + body.length < 256 ^ 2 := by omega
  unfold withHeader
  dsimp only
  rw [packUnsigned_of_lt htotal, packUnsigned_of_lt (show 0 < 256 ^ 1 by decide),
    packUnsigned_of_lt ts_lt]
  simp [layout]

theorem length_layout (messageType : Char) :
    (layout messageType ns body).length = 8 + body.length := by
  simp [layout]
  omega

def addBody (orderRef : Nat) (s : UInt8) (shares : Nat) (stockBytes : List UInt8)
    (price : Nat) : List UInt8 :=
  Bytes.toBE 8 orderRef ++ (s :: (Bytes.toBE 4 shares ++
    (stockBytes ++ (Bytes.toBE 8 price ++ Bytes.toBE 4 0))))

/-- `stock.encode().ljust(8)[:8]` -/
def stockBytes (stock : String) : List UInt8 := (ljust 8 (encode stock)).take 8

theorem length_stockBytes (stock : String) : (stockBytes stock).length = 8 := by
  rw [stockBytes, List.length_take, ljust, List.length_append, List.length_replicate]
  omega

theorem makeAddOrder_eq (href : orderRef < 2 ^ 64) (hshares : shares < 2 ^ 32)
    (hprice : price < 2 ^ 64) (hside : encode side = [s]) :
    makeAddOrder ns orderRef side shares stock price =
      some (layout 'A' ns (addBody orderRef s shares (stockBytes stock) price)) := by
  unfold makeAddOrder packOrder
  rw [hside, packUnsigned_of_lt (w := 8) (by omega), packUnsigned_of_lt (w := 4) (by omega),
    packUnsigned_of_lt (w := 8) (by omega), packUnsigned_of_lt (show 0 < 256 ^ 4 by decide)]
  have hstock := length_stockBytes stock
  dsimp only [packChar, Option.bind_eq_bind, Option.bind_some]
  rw [← stockBytes, withHeader_eq]
  · simp [addBody]
  · simp [hstock]

theorem makeCancel_eq (href : orderRef < 2 ^ 64) (hshares : shares < 2 ^ 32) :
    makeCancel ns orderRef shares =
      some (layout 'X' ns (Bytes.toBE 8 orderRef ++ Bytes.toBE 4 shares)) := by
  unfold makeCancel
  rw [packUnsigned_of_lt (w := 8) (by omega), packUnsigned_of_lt (w := 4) (by omega)]
  simp only [Option.bind_eq_bind, Option.bind_some]
  rw [withHeader_eq]
  simp

end Pack

section Decode

variable {ns : Nat} {stock body : List UInt8} {messageType : Char}

theorem u8_type : Itch.u8 2 (layout messageType ns body) = messageType.toUInt8 := by
  simp [Itch.u8, layout, Bytes.field_tail, Bytes.field_byte]

theorem cast_add (ns orderRef : Nat) (s : UInt8) (shares price : Nat) (hstock : stock.length = 8) :
    ∃ msg,
    Itch.AddOrderMessage.cast (layout 'A' ns (addBody orderRef s shares stock price)) =
        some msg ∧
      msg.orderRef = UInt64.ofNat (Bytes.swap 8 orderRef) ∧ msg.side = s ∧
      msg.shares = UInt32.ofNat (Bytes.swap 4 shares) ∧
      msg.price = UInt64.ofNat (Bytes.swap 8 price) := by
  unfold Itch.AddOrderMessage.cast Itch.castMessage
  rw [if_neg (by simp [length_layout, addBody, hstock])]
  refine ⟨_, rfl, ?_⟩
  simp [layout, addBody, hstock, Itch.u64, Itch.u32, Itch.u8, Bytes.field_tail, Bytes.field_head,
    Bytes.field_cons, Bytes.field_byte, Bytes.swap]

theorem cast_cancel (ns orderRef shares : Nat) : ∃ msg,
    Itch.CancelOrderMessage.cast
        (layout 'X' ns (Bytes.toBE 8 orderRef ++ Bytes.toBE 4 shares)) = some msg ∧
      msg.orderRef = UInt64.ofNat (Bytes.swap 8 orderRef) ∧
      msg.cancelledShares = UInt32.ofNat (Bytes.swap 4 shares) := by
  unfold Itch.CancelOrderMessage.cast Itch.castMessage
  rw [if_neg (by simp [length_layout])]
  refine ⟨_, rfl, ?_⟩
  simp [layout, Itch.u64, Itch.u32, Bytes.field_tail, Bytes.field_head, Bytes.field_cons,
    Bytes.field_last, Bytes.swap]

end Decode

/-! ## Whether both sides mean the same message -/

/-- Handling the message adds exactly this order to the book. -/
def Adds {C : Type} (h : MarketDataHandler C) (bytes : List UInt8) (order : Order) : Prop :=
  ∃ ok h', h.processMessage (some bytes) = some (ok, h') ∧
    OrderBook.Gains h.orderBook_ h'.orderBook_ order

/-- The handler takes the bytes for the cancellation of so many shares. -/
def Cancels (bytes : List UInt8) (orderRef : UInt64) (cancelledShares : UInt32) : Prop :=
  (Itch.MessageHeader.read bytes).messageType = Itch.msgCancelOrder ∧
    ∃ msg, Itch.CancelOrderMessage.cast bytes = some msg ∧ msg.orderRef = orderRef ∧
      msg.cancelledShares = cancelledShares

def sideName : Side → String
  | .buy => "B"
  | .sell => "S"

section Agree

variable {C : Type} {h : MarketDataHandler C} {ns orderRef shares price : Nat} {side : Side}
  {stock : String}

theorem encode_sideName (side : Side) : ∃ s, encode (sideName side) = [s] ∧
    MarketDataHandler.sideOf s = side := by
  cases side with
  | buy => exact ⟨'B'.toUInt8, by decide, by decide⟩
  | sell => exact ⟨'S'.toUInt8, by decide, by decide⟩

theorem u64_ofNat_inj {n m : Nat} (hn : n < 2 ^ 64) (hm : m < 2 ^ 64) :
    UInt64.ofNat n = UInt64.ofNat m ↔ n = m := by
  rw [← UInt64.toNat_inj, UInt64.toNat_ofNat_of_lt' hn, UInt64.toNat_ofNat_of_lt' hm]

theorem u32_ofNat_inj {n m : Nat} (hn : n < 2 ^ 32) (hm : m < 2 ^ 32) :
    UInt32.ofNat n = UInt32.ofNat m ↔ n = m := by
  rw [← UInt32.toNat_inj, UInt32.toNat_ofNat_of_lt' hn, UInt32.toNat_ofNat_of_lt' hm]

theorem processMessage_makeAddOrder (h : MarketDataHandler C) (ns : Nat) (side : Side)
    (stock : String) (href : orderRef < 2 ^ 64) (hshares : shares < 2 ^ 32)
    (hprice : price < 2 ^ 64) :
    ∃ bytes, makeAddOrder ns orderRef (sideName side) shares stock price = some bytes ∧
      (h.processMessage (some bytes)).map (fun r => r.2.orderBook_) =
        (h.orderBook_.addOrder (some (Order.make (UInt64.ofNat (Bytes.swap 8 orderRef))
          h.instrumentId_ side (UInt64.ofNat (Bytes.swap 8 price))
          (UInt32.ofNat (Bytes.swap 4 shares))))).map Prod.snd := by
  have ⟨s, hs, hside⟩ := encode_sideName side
  have ⟨msg, hcast, hmsgref, hmsgside, hmsgshares, hmsgprice⟩ := cast_add ns orderRef s shares price
    (length_stockBytes stock)
  refine ⟨_, makeAddOrder_eq href hshares hprice hs, ?_⟩
  rw [MarketDataHandler.processMessage_add (.inl u8_type) hcast, MarketDataHandler.orderOf,
    hmsgref, hmsgside, hmsgshares, hmsgprice, hside]

/-- The handler adds the order that was meant exactly when every integer of the
message reads the same in both byte orders and the index has a free slot. -/
theorem adds_iff (hh : h.Reachable) (href : orderRef < 2 ^ 64) (hshares : shares < 2 ^ 32)
    (hprice : price < 2 ^ 64) (habsent : ∀ i, h.orderBook_.Stored i →
      (h.orderBook_.orders_.slots i).key ≠ UInt64.ofNat orderRef) :
    (∃ bytes, makeAddOrder ns orderRef (sideName side) shares stock price = some bytes ∧
      Adds h bytes (Order.make (UInt64.ofNat orderRef) h.instrumentId_ side
        (UInt64.ofNat price) (UInt32.ofNat shares))) ↔
      Bytes.swap 8 orderRef = orderRef ∧ Bytes.swap 4 shares = shares ∧
        Bytes.swap 8 price = price ∧ ∃ i < h.orderBook_.orders_.capacity_,
          (h.orderBook_.orders_.slots i).occupied = false := by
  have hb := hh.constructed
  have ⟨bytes, hmake, hbook⟩ := processMessage_makeAddOrder h ns side stock href hshares hprice
  rw [hmake]
  constructor
  · intro ⟨bytes', heq, ok, h', hprocess, hgain⟩
    obtain rfl := Option.some.inj heq
    rw [hprocess, Option.map_some, eq_comm, Option.map_eq_some_iff] at hbook
    have ⟨⟨added, b'⟩, hadd, hsame⟩ := hbook
    obtain rfl : b' = h'.orderBook_ := hsame
    rcases OrderBook.addOrder_cases hb hadd with ⟨_, hunchanged⟩ | ⟨_, hgain'⟩
    · rw [hunchanged] at hgain
      exact (OrderBook.not_gains_self hgain).elim
    · -- the order that was added is the one that was meant
      have hunlinked := hgain'.unlinked_eq hgain
      have ⟨hid, _, _, hp, hq, _⟩ := Order.mk.inj hunlinked
      exact ⟨(u64_ofNat_inj Bytes.swap_lt href).mp hid, (u32_ofNat_inj Bytes.swap_lt hshares).mp hq,
        (u64_ofNat_inj Bytes.swap_lt hprice).mp hp, hgain.exists_free⟩
  · intro ⟨hswapref, hswapshares, hswapprice, hroom⟩
    rw [hswapref, hswapshares, hswapprice] at hbook
    have ⟨b', hadd, hgain⟩ := OrderBook.exists_addOrder_gains hb
      (o := Order.make (UInt64.ofNat orderRef) h.instrumentId_ side (UInt64.ofNat price)
        (UInt32.ofNat shares)) habsent hroom
    rw [hadd, Option.map_some, Option.map_eq_some_iff] at hbook
    have ⟨⟨ok, h'⟩, hprocess, hsame⟩ := hbook
    exact ⟨bytes, rfl, ok, h', hprocess, by rw [hsame]; exact hgain⟩

theorem cancels_iff (href : orderRef < 2 ^ 64) (hshares : shares < 2 ^ 32) :
    (∃ bytes, makeCancel ns orderRef shares = some bytes ∧
      Cancels bytes (UInt64.ofNat orderRef) (UInt32.ofNat shares)) ↔
      Bytes.swap 8 orderRef = orderRef ∧ Bytes.swap 4 shares = shares := by
  have ⟨msg, hcast, hmsgref, hmsgshares⟩ := cast_cancel ns orderRef shares
  rw [makeCancel_eq href hshares, ← u64_ofNat_inj Bytes.swap_lt href,
    ← u32_ofNat_inj Bytes.swap_lt hshares, ← hmsgref, ← hmsgshares]
  constructor
  · intro ⟨bytes, heq, _, msg', hcast', hcancel⟩
    obtain rfl := Option.some.inj heq
    obtain rfl := Option.some.inj (hcast.symm.trans hcast')
    exact hcancel
  · intro hcancel
    exact ⟨_, rfl, u8_type, msg, hcast, hcancel⟩

end Agree

/-- **Sender and handler agree on a message exactly when each of its integers
reads the same in both byte orders** (and, for an add, the index has room). -/
theorem agree_iff_palindromic (C : Type) :
    (∀ (h : MarketDataHandler C) (ns orderRef shares price : Nat) (side : Side)
      (stock : String), h.Reachable → orderRef < 2 ^ 64 → shares < 2 ^ 32 → price < 2 ^ 64 →
      (∀ i, h.orderBook_.Stored i →
        (h.orderBook_.orders_.slots i).key ≠ UInt64.ofNat orderRef) →
      ((∃ bytes, makeAddOrder ns orderRef (sideName side) shares stock price = some bytes ∧
        Adds h bytes (Order.make (UInt64.ofNat orderRef) h.instrumentId_ side
          (UInt64.ofNat price) (UInt32.ofNat shares))) ↔
        Bytes.swap 8 orderRef = orderRef ∧ Bytes.swap 4 shares = shares ∧
          Bytes.swap 8 price = price ∧ ∃ i < h.orderBook_.orders_.capacity_,
            (h.orderBook_.orders_.slots i).occupied = false)) ∧
    ∀ ns orderRef cancelledShares : Nat, orderRef < 2 ^ 64 → cancelledShares < 2 ^ 32 →
      ((∃ bytes, makeCancel ns orderRef cancelledShares = some bytes ∧
        Cancels bytes (UInt64.ofNat orderRef) (UInt32.ofNat cancelledShares)) ↔
        Bytes.swap 8 orderRef = orderRef ∧ Bytes.swap 4 cancelledShares = cancelledShares) :=
  ⟨fun _ _ _ _ _ _ _ hh href hshares hprice habsent => adds_iff hh href hshares hprice habsent,
    fun _ _ _ href hshares => cancels_iff href hshares⟩

/-- `0x0100000000000001` and `0x01000001` read the same from both ends. -/
theorem agree_iff_palindromic_palindromes :
    (∃ bytes, makeAddOrder 0 0x0100000000000001 "B" 0x01000001 "AAPL" 0x0100000000000001 =
      some bytes ∧ Adds (MarketDataHandler.new Unit 1) bytes
        (Order.make 0x0100000000000001 1 .buy 0x0100000000000001 0x01000001)) ∧
    ∃ bytes, makeCancel 0 0x0100000000000001 0x01000001 = some bytes ∧
      Cancels bytes 0x0100000000000001 0x01000001 :=
  ⟨((agree_iff_palindromic Unit).1 (MarketDataHandler.new Unit 1) 0 0x0100000000000001 0x01000001
      0x0100000000000001 .buy "AAPL" (MarketDataHandler.reachable_new 1) (by decide) (by decide)
      (by decide) (fun _ hi => nomatch hi.2)).mpr
      ⟨by decide, by decide, by decide, 0, by decide, rfl⟩,
    ((agree_iff_palindromic Unit).2 0 0x0100000000000001 0x01000001 (by decide) (by decide)).mpr
      ⟨by decide, by decide⟩⟩

/-- Order 1 arrives as order `2 ^ 56`. -/
theorem firstOrder_misread :
    ¬ ∀ (h : MarketDataHandler Unit) (ns orderRef shares price : Nat) (side : Side)
      (stock : String), h.Reachable → orderRef < 2 ^ 64 → shares < 2 ^ 32 → price < 2 ^ 64 →
      (∀ i, h.orderBook_.Stored i →
        (h.orderBook_.orders_.slots i).key ≠ UInt64.ofNat orderRef) →
      ∃ bytes, makeAddOrder ns orderRef (sideName side) shares stock price = some bytes ∧
        Adds h bytes (Order.make (UInt64.ofNat orderRef) h.instrumentId_ side
          (UInt64.ofNat price) (UInt32.ofNat shares)) := by
  intro hall
  have hnew := MarketDataHandler.reachable_new (C := Unit) 1
  have habsent : ∀ i, (MarketDataHandler.new Unit 1).orderBook_.Stored i →
      ((MarketDataHandler.new Unit 1).orderBook_.orders_.slots i).key ≠ UInt64.ofNat 1 :=
    fun _ hi => nomatch hi.2
  have hadds := hall _ 0 1 100 10000 .buy "AAPL" hnew (by decide) (by decide) (by decide) habsent
  have hswap := ((adds_iff hnew (by decide) (by decide) (by decide) habsent).mp hadds).1
  exact absurd hswap (by decide)

end UltraHft.Tools.ItchSender
