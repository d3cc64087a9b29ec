import UltraHft.MarketData.Proofs.OrderBook.Termination

/-!
# What an add does to the stored orders

`add_order` either refuses an id that the index finds or stores the order in a
free slot and leaves every other stored order as it is.
-/

namespace UltraHft.MarketData.OrderBook

open FlatOrderMap (SameShape Constructed HasExit)

/-- Slot `j` was free and now holds the order; the other slots are as before, up
to the links of their orders. -/
structure GainsAt (b b' : OrderBook) (order : Order) (j : Nat) : Prop where
  shape : SameShape b.orders_ b'.orders_
  free : ¬ b.Stored j
  stored : b'.Stored j
  key : (b'.orders_.slots j).key = order.orderId
  order : (b'.heap j).unlinked = order.unlinked
  others : ∀ i, i ≠ j → (b'.orders_.slots i).occupied = (b.orders_.slots i).occupied ∧
    (b'.orders_.slots i).key = (b.orders_.slots i).key ∧
    (b'.heap i).unlinked = (b.heap i).unlinked

def Gains (b b' : OrderBook) (order : Order) : Prop := ∃ j, GainsAt b b' order j

section Gains

variable {b b' : OrderBook} {o o' : Order} {j : Nat}

theorem Gains.unlinked_eq (h : Gains b b' o) (h' : Gains b b' o') :
    o.unlinked = o'.unlinked := by
  have ⟨j, hj⟩ := h
  have ⟨i, hi⟩ := h'
  obtain rfl : j = i := by
    by_contra hne
    have ⟨hocc, _⟩ := hi.others j hne
    apply hj.free
    rw [Stored, ← hi.shape.capacity, ← hocc]
    exact hj.stored
  rw [← hj.order, hi.order]

theorem Gains.exists_free (h : Gains b b' o) :
    ∃ j < b.orders_.capacity_, (b.orders_.slots j).occupied = false := by
  have ⟨j, hj⟩ := h
  have hlt : j < b.orders_.capacity_ := by
    rw [← hj.shape.capacity]
    exact hj.stored.1
  refine ⟨j, hlt, ?_⟩
  have hfree := hj.free
  rw [Stored, not_and] at hfree
  simpa using hfree hlt

theorem not_gains_self : ¬ Gains b b o := fun ⟨_, hj⟩ => hj.free hj.stored

theorem addOrder_gains (hb : Constructed b.orders_) (hj : b.orders_.probe o.orderId = some j)
    (hfree : (b.orders_.slots j).occupied = false) :
    ∃ b', b.addOrder (some o) = some (true, b') ∧ GainsAt b b' o j := by
  have hlt := FlatOrderMap.probe_lt (FlatOrderMap.sized_of_probe hb hj) hj
  rw [Coherent.addOrder_free hj hfree]
  have hslot : (b.orders_.filled j o).slots j = ⟨o.orderId, o, true⟩ :=
    FlatOrderMap.slots_filled_self
  have hother : ∀ i, i ≠ j → (b.orders_.filled j o).slots i = b.orders_.slots i :=
    fun i hi => FlatOrderMap.slots_filled_of_ne hi
  have hshape : SameShape b.orders_ (b.orders_.filled j o) := ⟨rfl, rfl⟩
  generalize b.orders_.filled j o = m at hslot hother hshape ⊢
  have ⟨hp, hsame, hlink⟩ := linkAt_orders { b with orders_ := m } o.side
    (findOrInsert (b.levels o.side) o.price (cmp o.side)).1
    (findOrInsert (b.levels o.side) o.price (cmp o.side)).2 j
  refine ⟨_, rfl, ?_⟩
  have hheap : ∀ i, ((OrderBook.linkAt { b with orders_ := m } o.side
      (findOrInsert (b.levels o.side) o.price (cmp o.side)).1
      (findOrInsert (b.levels o.side) o.price (cmp o.side)).2 j).heap i).unlinked =
        (m.slots i).order.unlinked := by
    intro i
    rw [heap, hlink]
    exact hsame i
  constructor
  case shape =>
    rw [hlink]
    exact hshape.trans (withHeap_shape ..)
  case free => simp [Stored, hfree]
  case stored =>
    rw [Stored, hlink]
    change j < m.capacity_ ∧ (m.slots j).occupied = true
    rw [hshape.capacity, hslot]
    exact ⟨hlt, rfl⟩
  case key =>
    rw [hlink]
    change (m.slots j).key = _
    rw [hslot]
  case order => rw [hheap, hslot]
  case others =>
    intro i hi
    rw [hheap, hlink, hother i hi]
    change (m.slots i).occupied = _ ∧ (m.slots i).key = _ ∧ _
    rw [hother i hi]
    exact ⟨rfl, rfl, rfl⟩

theorem addOrder_cases (hb : Constructed b.orders_) {added : Bool}
    (h : b.addOrder (some o) = some (added, b')) :
    (added = false ∧ b' = b) ∨ (added = true ∧ Gains b b' o) := by
  cases hj : b.orders_.probe o.orderId with
  | none =>
      rw [addOrder_hangs hj] at h
      cases h
  | some j =>
      cases hocc : (b.orders_.slots j).occupied with
      | true =>
          rw [Coherent.addOrder_duplicate hj hocc rfl] at h
          obtain ⟨rfl, rfl⟩ := Prod.mk.inj (Option.some.inj h)
          exact .inl ⟨rfl, rfl⟩
      | false =>
          have ⟨b'', hadd, hgain⟩ := addOrder_gains hb hj hocc
          rw [hadd] at h
          obtain ⟨rfl, rfl⟩ := Prod.mk.inj (Option.some.inj h)
          exact .inr ⟨rfl, j, hgain⟩

/-- The order is stored if no slot holds its id and some slot is free. -/
theorem exists_addOrder_gains (hb : Constructed b.orders_)
    (habsent : ∀ i, b.Stored i → (b.orders_.slots i).key ≠ o.orderId)
    (hroom : ∃ i < b.orders_.capacity_, (b.orders_.slots i).occupied = false) :
    ∃ b', b.addOrder (some o) = some (true, b') ∧ Gains b b' o := by
  have hsized : FlatOrderMap.Sized b.orders_ := by
    rcases hb with hzero | hsized
    · have ⟨i, hi, _⟩ := hroom
      omega
    · exact hsized
  have ⟨j, hj, hfree⟩ := FlatOrderMap.probe_of_absent hsized hroom
    fun i hi hocc => habsent i ⟨hi, hocc⟩
  have ⟨b', hadd, hgain⟩ := addOrder_gains hb hj hfree
  exact ⟨b', hadd, j, hgain⟩

end Gains

end UltraHft.MarketData.OrderBook
