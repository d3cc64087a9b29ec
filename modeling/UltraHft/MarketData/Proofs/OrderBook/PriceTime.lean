import UltraHft.MarketData.Proofs.OrderBook.Depth

/-!
# The order book as a price-time book

In a run that breaks no probe path the answers, the levels with their queues and
totals, the best prices and the count of orders are the ones of a price-time
book.
-/

namespace UltraHft.MarketData.OrderBook

open UltraHft.Lib

variable {b : OrderBook} {ptrs : List Nat} {book : PriceTime.Book UInt64 Nat}

/-! ## What the queries show -/

/-- The levels, their queues and their totals are the ones of the price-time book. -/
structure Shows (b : OrderBook) (book : PriceTime.Book UInt64 Nat) : Prop where
  orderCount : b.orderCount = book.orders.length
  levels : ∀ side : Side,
    (b.levels side).map (fun lv => lv.price_.toNat) = book.ladder side.meaning
  bestBid : b.bestBid.map UInt64.toNat = book.best .bid
  bestAsk : b.bestAsk.map UInt64.toNat = book.best .ask
  queues : ∀ (side : Side) (price : UInt64), ∃ walk, b.LinkedAt side price walk ∧
    walk.map (fun p => (b.heap p).meaning) = book.queue side.meaning price.toNat
  depth : ∀ (side : Side) (price : UInt64) (fuel : Nat),
    (book.queue side.meaning price.toNat).length < fuel →
      qtyAt fuel b side price = some (UInt32.ofNat (book.depth side.meaning price.toNat))

namespace Implements

theorem mem_prices (hbook : (b.entries ptrs).meaning = book.orders) {side : Side} {p : Nat} :
    p ∈ book.prices side.meaning ↔
      ∃ o ∈ b.entries ptrs, o.side = side ∧ o.price.toNat = p := by
  rw [PriceTime.Book.mem_prices, ← hbook]
  simp [Ledger.meaning, Order.meaning, Side.meaning_inj]

theorem levels (h : Implements b book) (side : Side) :
    (b.levels side).map (fun lv => lv.price_.toNat) = book.ladder side.meaning := by
  obtain ⟨ptrs, hsound, hbook, -⟩ := h
  apply PriceTime.Book.eq_ladder
  · rw [List.pairwise_map]
    refine (hsound.laddered.sorted side).imp ?_
    intro x y hcmp
    rw [cmp_iff] at hcmp
    cases side with
    | buy => exact UInt64.lt_iff_toNat_lt.mp hcmp
    | sell => exact UInt64.lt_iff_toNat_lt.mp hcmp
  · intro p
    rw [mem_prices hbook, List.mem_map]
    constructor
    · rintro ⟨lv, hlv, rfl⟩
      obtain ⟨q, hq⟩ := List.exists_mem_of_ne_nil _ (hsound.laddered.headed side lv hlv)
      obtain ⟨hq, hrest⟩ := mem_queue.mp hq
      obtain ⟨hside, hprice⟩ := restsAt_iff.mp hrest
      exact ⟨_, List.mem_map_of_mem hq, hside, congrArg UInt64.toNat hprice⟩
    · rintro ⟨o, ho, rfl, rfl⟩
      obtain ⟨q, hq, rfl⟩ := List.mem_map.mp ho
      obtain ⟨lv, hlv, hprice⟩ := hsound.laddered.covered q hq
      exact ⟨lv, hlv, congrArg UInt64.toNat hprice⟩

/-- The walk through the level of a price meets its queue. -/
theorem queues (h : Implements b book) (side : Side) (price : UInt64) :
    ∃ walk, b.LinkedAt side price walk ∧
      walk.map (fun p => (b.heap p).meaning) = book.queue side.meaning price.toNat := by
  obtain ⟨ptrs, hsound, hbook, -⟩ := h
  have hqueue : (b.queue ptrs side price).map (fun p => (b.heap p).meaning) =
      book.queue side.meaning price.toNat := by
    rw [PriceTime.Book.queue, ← hbook, ← Ledger.meaning_rests, entries_filter, List.map_map]
    rfl
  refine ⟨b.queue ptrs side price, ?_, hqueue⟩
  unfold LinkedAt
  cases hfind : (b.levels side).find? fun lv => lv.price_ == price with
  | none =>
      apply hsound.laddered.queue_eq_nil
      intro lv hlv heq
      exact List.find?_eq_none.mp hfind lv hlv (by simpa using heq)
  | some lv =>
      have hprice : lv.price_ = price := by simpa using List.find?_some hfind
      have hlinks := hsound.laddered.linked side lv (List.mem_of_find?_eq_some hfind)
      rw [hprice] at hlinks
      exact hlinks.walks

theorem qtyAt_mono {n m : Nat} {side : Side} {price : UInt64} {qty : UInt32} (hnm : n ≤ m)
    (h : qtyAt n b side price = some qty) : qtyAt m b side price = some qty := by
  unfold qtyAt at h ⊢
  cases hfind : (b.levels side).find? fun lv => lv.price_ == price with
  | none =>
      rw [hfind] at h
      exact h
  | some lv =>
      rw [hfind] at h
      exact Loop.run_mono hnm h

theorem depth (h : Implements b book) (side : Side) (price : UInt64) {fuel : Nat}
    (hfuel : (book.queue side.meaning price.toNat).length < fuel) :
    qtyAt fuel b side price = some (UInt32.ofNat (book.depth side.meaning price.toNat)) := by
  obtain ⟨walk, hlinked, hwalk⟩ := h.queues side price
  have hsum : sharesLeft (walk.map b.heap) = book.depth side.meaning price.toNat := by
    rw [PriceTime.Book.depth, ← hwalk, sharesLeft, List.map_map, List.map_map]
    rfl
  rw [← hwalk, List.length_map] at hfuel
  rw [← hsum]
  exact qtyAt_mono (by omega) hlinked.qtyAt

theorem shows (h : Implements b book) : Shows b book where
  orderCount := by
    obtain ⟨ptrs, hsound, hbook, -⟩ := h
    rw [← hbook, Ledger.meaning, List.length_map, entries, List.length_map, ← hsound.arrivals.size]
    rfl
  levels := h.levels
  bestBid := by
    rw [PriceTime.Book.best, show PriceTime.Side.bid = Side.buy.meaning from rfl, ← h.levels,
      List.head?_map]
    simp [bestBid, OrderBook.levels, Function.comp_def]
  bestAsk := by
    rw [PriceTime.Book.best, show PriceTime.Side.ask = Side.sell.meaning from rfl, ← h.levels,
      List.head?_map]
    simp [bestAsk, OrderBook.levels, Function.comp_def]
  queues := h.queues
  depth := fun side price _ hfuel => h.depth side price hfuel

end Implements

/-- **In a run that never breaks a probe path the order book is a price-time
book.** Every call returns with the answer of that book, and the queries show its
state. -/
theorem exec_implements (instrumentId : UInt32) (calls : List BookCall)
    (hroom : LeavesRoom calls) (hno : NeverCrosses instrumentId calls) :
    ∃ given b, Simulation.answers (fun b call => BookCall.run b call) (new instrumentId) calls =
        some (given, b) ∧
      given.map Answer.meaning = (meant calls).1 ∧ Shows b (meant calls).2 := by
  obtain ⟨given, b, hrun, hgiven, himpl⟩ := run_matches.answers
    ⟨[], Stores.new instrumentId⟩ calls fun pre call hpre before hbefore => by
      refine ⟨hroom pre call hpre, ?_⟩
      have hexec := exec_eq_answers instrumentId pre
      rw [hbefore] at hexec
      obtain ⟨s, hs, hfst⟩ := Option.map_eq_some_iff.mp hexec
      rw [← show s.1 = before.2 from hfst]
      exact hno pre call hpre s hs
  exact ⟨given, b, hrun, hgiven, himpl.shows⟩

theorem exec_implements_threeOrders : ∃ given b,
    Simulation.answers (fun b call => BookCall.run b call) (new 1) threeOrders = some (given, b) ∧
      given.map Answer.meaning = [.done true, .done true, .done true, .executed 3, .executed 7,
        .executed 0, .done true, .done false, .done true, .done false] ∧
      Shows b ⟨[⟨1, .bid, 100, 2⟩, ⟨2, .bid, 100, 6⟩], by decide⟩ :=
  exec_implements 1 threeOrders (leavesRoom_of_length (by decide))
    (neverCrosses_of_distinctSlots 1 (leavesRoom_of_length (by decide)) (by decide))

end UltraHft.MarketData.OrderBook
