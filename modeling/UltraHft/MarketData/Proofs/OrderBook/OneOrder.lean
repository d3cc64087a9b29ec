import UltraHft.MarketData.Proofs.OrderBook.Gains

/-!
# A book with one order at most

Its order sits in the natural slot of its id, so that every probe for the id
stops at once and an erasure has nothing to shift.
-/

namespace UltraHft.MarketData.OrderBook

open UltraHft.Lib
open FlatOrderMap (Sized SameShape)

/-- No order but that of `id` is stored, and that one if `present`. -/
structure Only (b : OrderBook) (id : UInt64) (present : Bool) : Prop where
  sized : Sized b.orders_
  here : (b.orders_.slots (b.orders_.hash id)).occupied = present
  key : present = true → (b.orders_.slots (b.orders_.hash id)).key = id
  alone : ∀ i, i ≠ b.orders_.hash id → (b.orders_.slots i).occupied = false

/-- `q` shares of order `id` are left, and no other order is stored. -/
structure Holds (b : OrderBook) (id : UInt64) (q : Nat) : Prop extends
    Only b id (decide (q ≠ 0)) where
  left : q ≠ 0 → (b.heap (b.orders_.hash id)).remainingQty.toNat = q

def Live (b : OrderBook) (id : UInt64) (q : Nat) : Prop :=
  ∃ i, b.Stored i ∧ (b.orders_.slots i).key = id ∧ (b.heap i).remainingQty.toNat = q

def Gone (b : OrderBook) (id : UInt64) : Prop :=
  ∀ i, b.Stored i → (b.orders_.slots i).key ≠ id

namespace Only

variable {b b' : OrderBook} {id : UInt64} {present : Bool}

theorem holds_zero (h : Only b id false) : Holds b id 0 where
  toOnly := h
  left := by simp

theorem probe_eq (h : Only b id present) : b.orders_.probe id = some (b.orders_.hash id) := by
  cases present with
  | false => exact FlatOrderMap.probe_of_home_free h.sized h.here
  | true =>
      have hlt := h.sized.hash_lt id
      rw [FlatOrderMap.probe_eq_some_iff h.sized]
      refine ⟨hlt, ?_, ?_⟩
      · rw [← FlatOrderMap.probeStops_eq_stops hlt, FlatOrderMap.probeStops_iff]
        exact ⟨hlt, .inr (h.key rfl)⟩
      · intro i _ hbefore
        rw [Cyclic.dist_self hlt] at hbefore
        omega

theorem of_withHeap (h : Only b id present) {hp : Heap}
    (horders : b'.orders_ = b.orders_.withHeap hp) : Only b' id present := by
  constructor
  case sized =>
    rw [horders]
    exact ⟨h.sized.pow2, h.sized.mask⟩
  case here =>
    rw [horders]
    exact h.here
  case key =>
    rw [horders]
    exact h.key
  case alone =>
    rw [horders]
    exact h.alone

theorem backwardShift_eq (h : Only b id present) :
    b.orders_.backwardShift (b.orders_.hash id) =
      some (Function.update b.orders_.slots (b.orders_.hash id)
        { b.orders_.slots (b.orders_.hash id) with occupied := false }) := by
  unfold FlatOrderMap.backwardShift FlatOrderMap.shiftFuel
  dsimp only
  apply Loop.run_succ_leave
  unfold FlatOrderMap.shiftBody
  dsimp only
  rw [if_pos]
  rw [Bool.not_eq_true']
  -- in a table of one slot it is the vacated slot itself
  by_cases hi : b.orders_.next (b.orders_.hash id) = b.orders_.hash id
  · rw [hi, Function.update_self]
  · rw [Function.update_of_ne hi]
    exact h.alone _ hi

theorem erased (h : Only b id present) {m : FlatOrderMap}
    (hm : m = { b.orders_ with
      slots := Function.update b.orders_.slots (b.orders_.hash id)
        { b.orders_.slots (b.orders_.hash id) with occupied := false }
      size_ := sizePred b.orders_.size_ }) :
    Only { b with orders_ := m } id false := by
  subst hm
  constructor
  case sized => exact ⟨h.sized.pow2, h.sized.mask⟩
  case here =>
    change (Function.update b.orders_.slots (b.orders_.hash id) _ (b.orders_.hash id)).occupied = _
    rw [Function.update_self]
  case key => simp
  case alone =>
    intro i hi
    have hi' : i ≠ b.orders_.hash id := hi
    change (Function.update b.orders_.slots (b.orders_.hash id) _ i).occupied = _
    rw [Function.update_of_ne hi']
    exact h.alone i hi

theorem cancel (h : Only b id present) :
    ∃ ok b', b.cancelOrder id = some (ok, b') ∧ Only b' id false := by
  cases present with
  | false => exact ⟨_, b, Coherent.cancelOrder_absent h.probe_eq h.here, h⟩
  | true =>
      have ⟨hp, _, hunlink⟩ := unlink_orders b (b.orders_.hash id)
      have h' := h.of_withHeap hunlink
      have hhash : (b.unlink (b.orders_.hash id)).orders_.hash id = b.orders_.hash id := by
        rw [hunlink]
        rfl
      have her := FlatOrderMap.erase_of_occupied h'.probe_eq h'.here h'.backwardShift_eq
      exact ⟨_, _, Coherent.cancelOrder_present h.probe_eq h.here her, h'.erased rfl⟩

end Only

theorem holds_new (instrumentId : UInt32) (id : UInt64) : Holds (new instrumentId) id 0 :=
  Only.holds_zero
    { sized := FlatOrderMap.new_sized (by decide)
      here := rfl
      key := by simp
      alone := fun _ _ => rfl }

namespace Holds

variable {b b' : OrderBook} {id : UInt64} {q : Nat}

theorem live_iff (h : Holds b id q) {n : Nat} (hn : n ≠ 0) : Live b id n ↔ q = n := by
  constructor
  · intro ⟨i, ⟨_, hocc⟩, _, hleft⟩
    obtain rfl : i = b.orders_.hash id := by
      by_contra hne
      rw [h.alone i hne] at hocc
      cases hocc
    rw [h.here, decide_eq_true_eq] at hocc
    rw [← h.left hocc, hleft]
  · intro heq
    subst heq
    refine ⟨_, ⟨h.sized.hash_lt id, ?_⟩, h.key (decide_eq_true hn), h.left hn⟩
    rw [h.here]
    exact decide_eq_true hn

theorem gone_iff (h : Holds b id q) : Gone b id ↔ q = 0 := by
  constructor
  · intro hgone
    by_contra hq
    refine hgone (b.orders_.hash id) ⟨h.sized.hash_lt id, ?_⟩ (h.key (decide_eq_true hq))
    rw [h.here]
    exact decide_eq_true hq
  · intro hq i ⟨_, hocc⟩ _
    by_cases hi : i = b.orders_.hash id
    · rw [hi, h.here, decide_eq_true_eq] at hocc
      exact hocc hq
    · rw [h.alone i hi] at hocc
      cases hocc

theorem cancel (h : Holds b id q) :
    ∃ ok b', b.cancelOrder id = some (ok, b') ∧ Holds b' id 0 := by
  have ⟨ok, b', hcancel, honly⟩ := h.toOnly.cancel
  exact ⟨ok, b', hcancel, honly.holds_zero⟩

theorem reduced (h : Holds b id q) (hq : q ≠ 0) {left : UInt32} (hleft : left.toNat ≠ 0) :
    Holds (b.reduced (b.orders_.hash id) left) id left.toNat := by
  have honly : Only (b.reduced (b.orders_.hash id) left) id (decide (q ≠ 0)) :=
    h.toOnly.of_withHeap rfl
  rw [decide_eq_true hq] at honly
  constructor
  · rw [decide_eq_true hleft]
    exact honly
  · intro _
    have hhash : (b.reduced (b.orders_.hash id) left).orders_.hash id = b.orders_.hash id := by
      unfold FlatOrderMap.hash
      rfl
    rw [hhash, heap_reduced, if_pos rfl]

theorem execute (h : Holds b id q) (qty : UInt32) :
    ∃ executed b', b.executeOrder id qty = some (executed, b') ∧
      Holds b' id (q - qty.toNat) := by
  by_cases hq : q = 0
  · subst hq
    have hfree : (b.orders_.slots (b.orders_.hash id)).occupied = false := h.here
    refine ⟨_, b, Coherent.executeOrder_absent h.probe_eq hfree qty, ?_⟩
    rw [Nat.zero_sub]
    exact h
  · have hocc : (b.orders_.slots (b.orders_.hash id)).occupied = true := by
      rw [h.here]
      exact decide_eq_true hq
    have hleft := h.left hq
    have hpos : (b.heap (b.orders_.hash id)).remainingQty ≠ 0 := by
      intro hzero
      rw [hzero, UInt32.toNat_zero] at hleft
      exact hq hleft.symm
    generalize hex : (if qty > (b.heap (b.orders_.hash id)).remainingQty then
      (b.heap (b.orders_.hash id)).remainingQty else qty) = executed
    have hsub := Coherent.toNat_left qty (b.heap (b.orders_.hash id)).remainingQty
    rw [hex, hleft] at hsub
    rw [Coherent.executeOrder_found h.probe_eq hocc hpos hex]
    generalize (b.heap (b.orders_.hash id)).remainingQty - executed = left at hsub
    rw [← hsub]
    by_cases hzero : left = 0
    · rw [if_pos hzero]
      have honly : Only (b.reduced (b.orders_.hash id) left) id (decide (q ≠ 0)) :=
        h.toOnly.of_withHeap rfl
      have ⟨ok, b', hcancel, honly'⟩ := honly.cancel
      refine ⟨_, _, Option.map_eq_some_iff.mpr ⟨_, hcancel, rfl⟩, ?_⟩
      rw [hzero, UInt32.toNat_zero]
      exact honly'.holds_zero
    · rw [if_neg hzero]
      have hne : left.toNat ≠ 0 :=
        fun h0 => hzero (UInt32.toNat_inj.mp (h0.trans UInt32.toNat_zero.symm))
      exact ⟨_, _, rfl, h.reduced hq hne⟩

theorem add (h : Holds b id 0) {o : Order} (ho : o.orderId = id)
    (hpos : o.remainingQty.toNat ≠ 0) :
    ∃ b', b.addOrder (some o) = some (true, b') ∧ Holds b' id o.remainingQty.toNat := by
  subst ho
  have hfree : (b.orders_.slots (b.orders_.hash o.orderId)).occupied = false := h.here
  obtain ⟨b', hadd, hgain⟩ := addOrder_gains (.inr h.sized) h.probe_eq hfree
  have hhash : b'.orders_.hash o.orderId = b.orders_.hash o.orderId := by
    rw [FlatOrderMap.hash, FlatOrderMap.hash, hgain.shape.mask]
  refine ⟨b', hadd, ?_, ?_⟩
  · constructor
    case sized =>
      constructor
      · rw [hgain.shape.capacity]
        exact h.sized.pow2
      · rw [hgain.shape.mask, hgain.shape.capacity]
        exact h.sized.mask
    case here =>
      rw [hhash, hgain.stored.2]
      exact (decide_eq_true hpos).symm
    case key =>
      intro _
      rw [hhash, hgain.key]
    case alone =>
      intro i hi
      rw [hhash] at hi
      rw [(hgain.others i hi).1]
      exact h.alone i hi
  · intro _
    obtain ⟨_, _, _, _, _, hleft, _⟩ := Order.mk.inj hgain.order
    rw [hhash, hleft]

end Holds

end UltraHft.MarketData.OrderBook
