import UltraHft.MarketData.Proofs.FlatOrderMap.Termination
import UltraHft.MarketData.Proofs.OrderBook.Coherent

/-!
# When the calls of an order book return

A call can only hang in the index, and it hangs exactly when the index offers
the id that the call names no exit: every slot holds another id.
-/

namespace UltraHft.MarketData

open UltraHft.Lib
open FlatOrderMap (SameShape Constructed HasExit KeyCall)

def BookCall.probed : BookCall → Option UInt64
  | .add order => order.map Order.orderId
  | .cancel orderId => some orderId
  | .execute orderId _ => some orderId

namespace OrderBook

variable {b : OrderBook} {id : UInt64} {j : Nat}

/-! The levels reach into the orders only. -/

theorem withHeap_self (m : FlatOrderMap) : m.withHeap m.heap = m := rfl

theorem linkAt_orders (b : OrderBook) (side : Side) (levels : List PriceLevel)
    (it stored : Nat) : ∃ h, Heap.SameOrders b.heap h ∧
      (b.linkAt side levels it stored).orders_ = b.orders_.withHeap h := by
  unfold linkAt
  cases levels[it]? with
  | none => exact ⟨b.heap, Heap.SameOrders.refl _, (withHeap_self b.orders_).symm⟩
  | some lv =>
      refine ⟨(lv.addOrder b.heap stored).2, PriceLevel.addOrder_sameOrders, ?_⟩
      cases side <;> rfl

theorem unlink_orders (b : OrderBook) (order : Nat) : ∃ h, Heap.SameOrders b.heap h ∧
    (b.unlink order).orders_ = b.orders_.withHeap h := by
  unfold unlink
  dsimp only
  split
  · exact ⟨b.heap, Heap.SameOrders.refl _, (withHeap_self b.orders_).symm⟩
  case h_2 lv _ =>
    refine ⟨(lv.removeOrder b.heap order).2, PriceLevel.removeOrder_sameOrders, ?_⟩
    cases (b.heap order).side <;> rfl

theorem withHeap_shape (m : FlatOrderMap) (h : Heap) : SameShape m (m.withHeap h) := ⟨rfl, rfl⟩

/-! ## The three calls -/

theorem addOrder_returns {order : Order} (hj : b.orders_.probe order.orderId = some j) :
    ∃ r, b.addOrder (some order) = some r ∧ SameShape b.orders_ r.2.orders_ := by
  have ⟨found, hfound⟩ := FlatOrderMap.find_returns hj
  unfold addOrder
  dsimp only
  rw [hfound]
  dsimp only [Option.bind_eq_bind, Option.bind_some]
  by_cases hsome : found.isSome
  · rw [if_pos hsome]
    exact ⟨_, rfl, rfl, rfl⟩
  · rw [if_neg hsome]
    have ⟨⟨stored, orders⟩, hins, hshape⟩ := FlatOrderMap.insert_returns hj order
    rw [hins, Option.bind_some]
    have ⟨h, _, hlink⟩ := linkAt_orders { b with orders_ := orders } order.side
      (findOrInsert (b.levels order.side) order.price (cmp order.side)).1
      (findOrInsert (b.levels order.side) order.price (cmp order.side)).2 stored
    exact ⟨_, rfl, by rw [hlink]; exact hshape.trans (withHeap_shape ..)⟩

theorem cancelOrder_returns (hb : Constructed b.orders_) (hj : b.orders_.probe id = some j) :
    ∃ r, b.cancelOrder id = some r ∧ SameShape b.orders_ r.2.orders_ := by
  have ⟨found, hfound⟩ := FlatOrderMap.find_returns hj
  unfold cancelOrder
  rw [hfound]
  dsimp only [Option.bind_eq_bind, Option.bind_some]
  cases found with
  | none => exact ⟨_, rfl, rfl, rfl⟩
  | some p =>
      have ⟨h, _, hunlink⟩ := unlink_orders b p
      have hshape := withHeap_shape b.orders_ h
      have ⟨r, her, hshape'⟩ := FlatOrderMap.erase_returns (hshape.constructed hb)
        ((probe_withHeap b.orders_).trans hj)
      dsimp only
      rw [hunlink, her, Option.bind_some]
      exact ⟨_, rfl, hshape.trans hshape'⟩

theorem executeOrder_returns (hb : Constructed b.orders_) (hj : b.orders_.probe id = some j)
    (qty : UInt32) :
    ∃ r, b.executeOrder id qty = some r ∧ SameShape b.orders_ r.2.orders_ := by
  cases hocc : (b.orders_.slots j).occupied with
  | false => exact ⟨_, Coherent.executeOrder_absent hj hocc qty, SameShape.refl _⟩
  | true =>
      by_cases hzero : (b.heap j).remainingQty = 0
      · exact ⟨_, Coherent.executeOrder_spent hj hocc hzero qty, SameShape.refl _⟩
      · generalize hex : (if qty > (b.heap j).remainingQty then (b.heap j).remainingQty
          else qty) = executed
        rw [Coherent.executeOrder_found hj hocc hzero hex]
        generalize (b.heap j).remainingQty - executed = left
        have hshape := withHeap_shape b.orders_ (b.heap.setRemainingQty j left)
        by_cases hleft : left = 0
        · rw [if_pos hleft]
          have ⟨r, hr, hshape'⟩ := cancelOrder_returns (b := b.reduced j left)
            (hshape.constructed hb) ((probe_withHeap b.orders_).trans hj)
          exact ⟨_, Option.map_eq_some_iff.mpr ⟨r, hr, rfl⟩, hshape.trans hshape'⟩
        · rw [if_neg hleft]
          exact ⟨_, rfl, hshape⟩

theorem addOrder_hangs {order : Order} (h : b.orders_.probe order.orderId = none) :
    b.addOrder (some order) = none := by
  simp [addOrder, FlatOrderMap.find_hangs h]

theorem cancelOrder_hangs (h : b.orders_.probe id = none) : b.cancelOrder id = none := by
  simp [cancelOrder, FlatOrderMap.find_hangs h]

theorem executeOrder_hangs (h : b.orders_.probe id = none) (qty : UInt32) :
    b.executeOrder id qty = none := by
  simp [executeOrder, FlatOrderMap.find_hangs h]

theorem run_returns (hb : Constructed b.orders_) (call : BookCall)
    (hexit : ∀ id, call.probed = some id → ∃ j, b.orders_.probe id = some j) :
    ∃ r, call.run b = some r ∧ SameShape b.orders_ r.2.orders_ := by
  cases call with
  | add order =>
      cases order with
      | none => exact ⟨_, rfl, SameShape.refl _⟩
      | some order =>
          have ⟨j, hj⟩ := hexit order.orderId rfl
          have ⟨r, hr, hshape⟩ := addOrder_returns hj
          exact ⟨_, Option.map_eq_some_iff.mpr ⟨r, hr, rfl⟩, hshape⟩
  | cancel id =>
      have ⟨j, hj⟩ := hexit id rfl
      have ⟨r, hr, hshape⟩ := cancelOrder_returns hb hj
      exact ⟨_, Option.map_eq_some_iff.mpr ⟨r, hr, rfl⟩, hshape⟩
  | execute id qty =>
      have ⟨j, hj⟩ := hexit id rfl
      have ⟨r, hr, hshape⟩ := executeOrder_returns hb hj qty
      exact ⟨_, Option.map_eq_some_iff.mpr ⟨r, hr, rfl⟩, hshape⟩

theorem run_hangs (call : BookCall) (hid : call.probed = some id)
    (h : b.orders_.probe id = none) : call.run b = none := by
  cases call with
  | add order =>
      cases order with
      | none => cases hid
      | some order =>
          obtain rfl := Option.some.inj hid
          exact Option.map_eq_none_iff.mpr (addOrder_hangs h)
  | cancel orderId =>
      obtain rfl := Option.some.inj hid
      exact Option.map_eq_none_iff.mpr (cancelOrder_hangs h)
  | execute orderId qty =>
      obtain rfl := Option.some.inj hid
      exact Option.map_eq_none_iff.mpr (executeOrder_hangs h qty)

/-- A call returns exactly when the index offers the id it names an exit. -/
theorem exists_run_iff (hb : Constructed b.orders_) (call : BookCall) :
    (∃ r, call.run b = some r) ↔ ∀ id, call.probed = some id → HasExit b.orders_ id := by
  constructor
  · intro ⟨r, hr⟩ id hid
    rw [← FlatOrderMap.probe_isSome_iff hb, Option.isSome_iff_ne_none]
    intro hnone
    rw [run_hangs call hid hnone] at hr
    cases hr
  · intro hexit
    have ⟨r, hr, _⟩ := run_returns hb call fun id hid =>
      Option.isSome_iff_exists.mp ((FlatOrderMap.probe_isSome_iff hb).mpr (hexit id hid))
    exact ⟨r, hr⟩

theorem run_constructed (hb : Constructed b.orders_) {call : BookCall} {r : Answer × OrderBook}
    (h : call.run b = some r) : Constructed r.2.orders_ := by
  have hexit := (exists_run_iff hb call).mp ⟨r, h⟩
  have ⟨r', hr', hshape⟩ := run_returns hb call fun id hid =>
    Option.isSome_iff_exists.mp ((FlatOrderMap.probe_isSome_iff hb).mpr (hexit id hid))
  obtain rfl : r = r' := Option.some.inj (h.symm.trans hr')
  exact hshape.constructed hb

theorem step_constructed {s s' : Recorded} {call : BookCall} (hs : Constructed s.1.orders_)
    (h : step s call = some s') : Constructed s'.1.orders_ := by
  rw [step, Option.map_eq_some_iff] at h
  obtain ⟨r, hr, heq⟩ := h
  rw [← heq]
  exact run_constructed hs hr

theorem bookCalls_return_iff (instrumentId : UInt32) (calls : List BookCall) :
    (∃ s, exec instrumentId calls = some s) ↔
      ∀ pre call, pre ++ [call] <+: calls → ∀ s, exec instrumentId pre = some s →
        ∀ id, call.probed = some id → HasExit s.1.orders_ id := by
  apply Runs.exec_returns_iff (fun _ s => Constructed s.1.orders_)
    (fun (s : Recorded) (call : BookCall) => ∀ id, call.probed = some id → HasExit s.1.orders_ id)
    (FlatOrderMap.new_constructed FlatOrderMap.kDefaultCapacity)
  · intro pre call s s' hs hstep
    exact step_constructed hs hstep
  · intro pre call s _ hs
    rw [← exists_run_iff hs call]
    unfold step
    simp only [Option.map_eq_some_iff]
    constructor
    · intro ⟨s', r, hr, _⟩
      exact ⟨r, hr⟩
    · intro ⟨r, hr⟩
      exact ⟨_, r, hr, rfl⟩

end OrderBook

namespace FlatOrderMap

/-- **The operations of an index, and the calls of a book, all return exactly
when the index always has an empty slot or holds the key at hand.** -/
theorem returns_iff_hasExit (capacity : UInt64) (keyCalls : List KeyCall) (instrumentId : UInt32)
    (bookCalls : List BookCall) :
    ((∃ m, Runs.exec KeyCall.run (new capacity) keyCalls = some m) ↔
      ∀ pre call, pre ++ [call] <+: keyCalls →
        ∀ m, Runs.exec KeyCall.run (new capacity) pre = some m → HasExit m call.key) ∧
    ((∃ s, OrderBook.exec instrumentId bookCalls = some s) ↔
      ∀ pre call, pre ++ [call] <+: bookCalls → ∀ s, OrderBook.exec instrumentId pre = some s →
        ∀ id, call.probed = some id → HasExit s.1.orders_ id) :=
  ⟨keyCalls_return_iff capacity keyCalls, OrderBook.bookCalls_return_iff instrumentId bookCalls⟩

/-- One slot, one live key, and a lookup of another one. -/
theorem fullTable_hangs :
    ¬ ∀ (capacity : UInt64) (calls : List KeyCall), KeyCall.WithinCapacity capacity calls →
      ∃ m, Runs.exec KeyCall.run (new capacity) calls = some m := by
  intro hall
  have ⟨m, hm⟩ := hall 1 [.insert 1 (Order.make 1 1 .buy 100 5), .find 2] (by decide)
  have hnone : (Runs.exec KeyCall.run (new 1)
      [.insert 1 (Order.make 1 1 .buy 100 5), .find 2]).isNone := by decide
  rw [hm] at hnone
  cases hnone

end FlatOrderMap

end UltraHft.MarketData
