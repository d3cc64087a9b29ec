import UltraHft.MarketData.Proofs.FlatOrderMap.Erasure
import UltraHft.MarketData.Proofs.OrderBook.Gains

/-!
# The stored orders as a whole

The slots of the index, with no regard to which slot holds what and to the links
between the orders.  Neither the levels nor the backward shift of an erasure
changes them: an add brings one order in, a cancel takes one out, and an
execution takes one out or changes what is left of it.
-/

namespace UltraHft.MarketData

open UltraHft.Lib

/-- The key of a slot and its order, the links of the order aside. -/
def Slot.entry (s : Slot) : UInt64 × Order := (s.key, s.order.unlinked)

namespace FlatOrderMap

variable {m m' : FlatOrderMap} {key : UInt64} {h : Heap} {j : Nat}

def entryAt (m : FlatOrderMap) (i : Nat) : Option (UInt64 × Order) :=
  (m.cells i).map Slot.entry

def entries (m : FlatOrderMap) : Multiset (UInt64 × Order) :=
  OpenAddressing.contents m.capacity_ m.entryAt

theorem entryAt_occupied (hocc : (m.slots j).occupied = true) :
    m.entryAt j = some (m.slots j).entry := by
  rw [entryAt, cells_eq_some.mpr ⟨hocc, rfl⟩]
  rfl

theorem entryAt_free (hfree : (m.slots j).occupied = false) : m.entryAt j = none := by
  rw [entryAt, cells_eq_none.mpr hfree]
  rfl

theorem mem_entries {e : UInt64 × Order} :
    e ∈ m.entries ↔ ∃ i < m.capacity_, (m.slots i).occupied = true ∧ (m.slots i).entry = e := by
  unfold entries entryAt
  rw [OpenAddressing.mem_contents]
  simp only [Option.map_eq_some_iff, cells_eq_some]
  constructor
  · intro ⟨i, hi, s, ⟨hocc, hs⟩, he⟩
    exact ⟨i, hi, hocc, hs ▸ he⟩
  · intro ⟨i, hi, hocc, he⟩
    exact ⟨i, hi, _, ⟨hocc, rfl⟩, he⟩

theorem entries_withHeap (hsame : Heap.SameOrders m.heap h) :
    (m.withHeap h).entries = m.entries := by
  apply OpenAddressing.contents_congr
  intro i _
  unfold entryAt
  rw [OrderBook.cells_withHeap]
  cases hcell : m.cells i with
  | none => rfl
  | some s =>
      obtain ⟨_, rfl⟩ := cells_eq_some.mp hcell
      have horder := hsame i
      simp only [Option.map_some, Slot.entry]
      rw [horder]
      rfl

theorem entries_split (hj : j < m.capacity_) (hocc : (m.slots j).occupied = true) :
    m.entries = (m.slots j).entry ::ₘ
      OpenAddressing.contents m.capacity_ (Function.update m.entryAt j none) :=
  OpenAddressing.contents_vacate hj (entryAt_occupied hocc)

theorem entries_eq_map (m : FlatOrderMap) : m.entries = m.held.map Slot.entry :=
  OpenAddressing.contents_map Slot.entry

theorem entries_erase (hm : Sized m) (hj : m.probe key = some j)
    (hocc : (m.slots j).occupied = true) {ok : Bool} (her : m.erase key = some (ok, m')) :
    ok = true ∧ m.entries = (m.slots j).entry ::ₘ m'.entries := by
  have ⟨_, herased, hheld, _⟩ := held_erase hm hj hocc
  obtain ⟨rfl, rfl⟩ := Prod.mk.inj (Option.some.inj (her.symm.trans herased))
  exact ⟨rfl, by rw [entries_eq_map, hheld, Multiset.map_cons, ← entries_eq_map]⟩

end FlatOrderMap

namespace OrderBook

variable {b b' : OrderBook} {id : UInt64} {j : Nat}

def storedOrders (b : OrderBook) : Multiset (UInt64 × Order) := b.orders_.entries

theorem mem_storedOrders {e : UInt64 × Order} :
    e ∈ b.storedOrders ↔ ∃ i, b.Stored i ∧ (b.orders_.slots i).entry = e := by
  rw [storedOrders, FlatOrderMap.mem_entries]
  simp only [Stored, and_assoc]

theorem storedOrders_unlink (b : OrderBook) (order : Nat) :
    (b.unlink order).storedOrders = b.storedOrders := by
  have ⟨h, hsame, horders⟩ := unlink_orders b order
  rw [storedOrders, horders]
  exact FlatOrderMap.entries_withHeap hsame

theorem Gains.storedOrders {o : Order} (h : Gains b b' o) :
    b'.storedOrders = (o.orderId, o.unlinked) ::ₘ b.storedOrders := by
  obtain ⟨j, hj⟩ := h
  have hlt : j < b.orders_.capacity_ := by
    rw [← hj.shape.capacity]
    exact hj.stored.1
  have hfree : (b.orders_.slots j).occupied = false := by
    simpa [Stored, hlt] using hj.free
  have hentry : b'.orders_.entryAt =
      Function.update b.orders_.entryAt j (some (o.orderId, o.unlinked)) := by
    ext1 i
    by_cases hi : i = j
    · subst hi
      rw [Function.update_self, FlatOrderMap.entryAt_occupied hj.stored.2, Slot.entry, hj.key]
      exact congrArg (fun order => some (o.orderId, order)) hj.order
    · obtain ⟨hocc, hkey, horder⟩ := hj.others i hi
      rw [Function.update_of_ne hi]
      cases hb : (b.orders_.slots i).occupied with
      | false =>
          rw [FlatOrderMap.entryAt_free hb, FlatOrderMap.entryAt_free (hocc.trans hb)]
      | true =>
          rw [FlatOrderMap.entryAt_occupied hb, FlatOrderMap.entryAt_occupied (hocc.trans hb)]
          exact congrArg some (Prod.ext hkey horder)
  rw [OrderBook.storedOrders, FlatOrderMap.entries, hentry, hj.shape.capacity]
  exact OpenAddressing.contents_fill hlt (FlatOrderMap.entryAt_free hfree)

theorem cancelOrder_found (hb : FlatOrderMap.Constructed b.orders_)
    (hj : b.orders_.probe id = some j) (hocc : (b.orders_.slots j).occupied = true)
    {cancelled : Bool} (h : b.cancelOrder id = some (cancelled, b')) :
    cancelled = true ∧ b.storedOrders = (b.orders_.slots j).entry ::ₘ b'.storedOrders := by
  have ⟨heap, hsame, horders⟩ := unlink_orders b j
  have hj' : (b.unlink j).orders_.probe id = some j := by
    rw [horders, probe_withHeap]
    exact hj
  have hocc' : ((b.unlink j).orders_.slots j).occupied = true := by
    rw [horders]
    exact hocc
  have hsized : FlatOrderMap.Sized (b.unlink j).orders_ := by
    rw [horders]
    exact FlatOrderMap.sized_of_probe ((withHeap_shape b.orders_ heap).constructed hb)
      ((probe_withHeap b.orders_).trans hj)
  have ⟨⟨ok, m⟩, her, _⟩ := FlatOrderMap.erase_returns (.inr hsized) hj'
  have hentries := (FlatOrderMap.entries_erase hsized hj' hocc' her).2
  have hentry : ((b.unlink j).orders_.slots j).entry = (b.orders_.slots j).entry := by
    rw [horders]
    exact Prod.ext rfl (hsame j)
  rw [hentry] at hentries
  rw [Coherent.cancelOrder_present hj hocc her] at h
  obtain ⟨rfl, rfl⟩ := Prod.mk.inj (Option.some.inj h)
  refine ⟨rfl, ?_⟩
  rw [← storedOrders_unlink b j]
  exact hentries

/-- A cancel that returns finds nothing and changes nothing, or takes the order
that the probe finds out of the book. -/
theorem cancelOrder_cases (hb : FlatOrderMap.Constructed b.orders_) {cancelled : Bool}
    (h : b.cancelOrder id = some (cancelled, b')) :
    (cancelled = false ∧ b.orders_.find id = some none ∧ b' = b) ∨
      (cancelled = true ∧ ∃ j, b.orders_.find id = some (some j) ∧
        b.storedOrders = (b.orders_.slots j).entry ::ₘ b'.storedOrders) := by
  cases hj : b.orders_.probe id with
  | none =>
      rw [cancelOrder_hangs hj] at h
      cases h
  | some j =>
      cases hocc : (b.orders_.slots j).occupied with
      | false =>
          rw [Coherent.cancelOrder_absent hj hocc] at h
          obtain ⟨rfl, rfl⟩ := Prod.mk.inj (Option.some.inj h)
          exact .inl ⟨rfl, FlatOrderMap.find_of_free hj hocc, rfl⟩
      | true =>
          have ⟨hcancelled, hgone⟩ := cancelOrder_found hb hj hocc h
          exact .inr ⟨hcancelled, j, FlatOrderMap.find_of_occupied hj hocc, hgone⟩

theorem entry_reduced (left : UInt32) : ((b.reduced j left).orders_.slots j).entry =
    ((b.orders_.slots j).key, { (b.heap j).unlinked with remainingQty := left }) := by
  change ((b.orders_.slots j).key, ((b.reduced j left).heap j).unlinked) = _
  rw [heap_reduced, if_pos rfl]
  rfl

theorem storedOrders_reduced (hj : j < b.orders_.capacity_)
    (hocc : (b.orders_.slots j).occupied = true) (left : UInt32) :
    ∃ others, b.storedOrders = (b.orders_.slots j).entry ::ₘ others ∧
      (b.reduced j left).storedOrders =
        ((b.orders_.slots j).key, { (b.heap j).unlinked with remainingQty := left }) ::ₘ
          others := by
  refine ⟨_, FlatOrderMap.entries_split hj hocc, ?_⟩
  have hj' : j < (b.reduced j left).orders_.capacity_ := hj
  rw [storedOrders, FlatOrderMap.entries_split hj' hocc]
  have hothers : Function.update (b.reduced j left).orders_.entryAt j none =
      Function.update b.orders_.entryAt j none := by
    ext1 i
    by_cases hi : i = j
    · rw [hi, Function.update_self, Function.update_self]
    · have horder : (b.reduced j left).orders_.slots i = b.orders_.slots i := by
        change ({ b.orders_.slots i with order := (b.reduced j left).heap i } : Slot) = _
        rw [heap_reduced, if_neg hi]
        rfl
      rw [Function.update_of_ne hi, Function.update_of_ne hi, FlatOrderMap.entryAt,
        FlatOrderMap.entryAt, FlatOrderMap.cells, FlatOrderMap.cells, FlatOrderMap.cellsOf,
        FlatOrderMap.cellsOf, horder]
  rw [hothers, entry_reduced]
  rfl

theorem storedOrders_reduced_iff (hj : j < b.orders_.capacity_)
    (hocc : (b.orders_.slots j).occupied = true) (taken : UInt32) :
    (b.reduced j ((b.heap j).remainingQty - taken)).storedOrders = b.storedOrders ↔
      taken = 0 := by
  have ⟨others, hbefore, hreduced⟩ :=
    storedOrders_reduced hj hocc ((b.heap j).remainingQty - taken)
  rw [hreduced, hbefore, Multiset.cons_inj_left]
  constructor
  · intro heq
    have hleft : (b.heap j).remainingQty - taken = (b.heap j).remainingQty :=
      congrArg Order.remainingQty (Prod.mk.inj heq).2
    apply (UInt32.sub_right_inj (b.heap j).remainingQty).mp
    rw [hleft, UInt32.sub_zero]
  · intro hnone
    rw [hnone, UInt32.sub_zero]
    rfl

def rest (o : Order) (taken : UInt32) : Order :=
  { o.unlinked with remainingQty := o.remainingQty - taken }

theorem cancelOrder_reduced (hb : FlatOrderMap.Constructed b.orders_)
    (hj : b.orders_.probe id = some j) (hocc : (b.orders_.slots j).occupied = true)
    {left : UInt32} {cancelled : Bool}
    (h : (b.reduced j left).cancelOrder id = some (cancelled, b')) :
    cancelled = true ∧ b.storedOrders = (b.orders_.slots j).entry ::ₘ b'.storedOrders := by
  have hlt := FlatOrderMap.probe_lt (FlatOrderMap.sized_of_probe hb hj) hj
  have hmid := (withHeap_shape b.orders_ (b.heap.setRemainingQty j left)).constructed hb
  have ⟨hcancelled, hgone⟩ := cancelOrder_found (b := b.reduced j left) hmid hj hocc h
  have ⟨others, hbefore, hreduced⟩ := storedOrders_reduced hlt hocc left
  rw [hreduced, entry_reduced] at hgone
  refine ⟨hcancelled, ?_⟩
  rw [hbefore, (Multiset.cons_inj_right _).mp hgone]

/-- What an execution takes from the order that the probe finds: as much as is
left of it, and at that point the order itself. -/
theorem executeOrder_takes (hb : FlatOrderMap.Constructed b.orders_)
    (hj : b.orders_.probe id = some j) (hocc : (b.orders_.slots j).occupied = true)
    (hpos : (b.heap j).remainingQty ≠ 0) {qty executed : UInt32}
    (h : b.executeOrder id qty = some (executed, b')) :
    executed.toNat = min qty.toNat (b.heap j).remainingQty.toNat ∧
      ∃ others, b.storedOrders = (b.orders_.slots j).entry ::ₘ others ∧
        ((executed = (b.heap j).remainingQty ∧ b'.storedOrders = others ∧
            (b.reduced j 0).cancelOrder id = some (true, b')) ∨
          (executed.toNat < (b.heap j).remainingQty.toNat ∧
            b' = b.reduced j ((b.heap j).remainingQty - executed) ∧
            b'.storedOrders =
              ((b.orders_.slots j).key, rest (b.heap j) executed) ::ₘ others)) := by
  have hlt := FlatOrderMap.probe_lt (FlatOrderMap.sized_of_probe hb hj) hj
  generalize hex : (if qty > (b.heap j).remainingQty then (b.heap j).remainingQty
    else qty) = taken at h
  have hmin : taken.toNat = min qty.toNat (b.heap j).remainingQty.toNat := by
    rw [← hex]
    exact Coherent.toNat_clamp qty _
  have hle : taken ≤ (b.heap j).remainingQty := by
    rw [UInt32.le_iff_toNat_le]
    omega
  have hsub := UInt32.toNat_sub_of_le _ _ hle
  rw [Coherent.executeOrder_found hj hocc hpos hex] at h
  by_cases hzero : (b.heap j).remainingQty - taken = 0
  · rw [if_pos hzero, Option.map_eq_some_iff] at h
    obtain ⟨⟨cancelled, b''⟩, hcancel, heq⟩ := h
    obtain ⟨rfl, rfl⟩ : taken = executed ∧ b'' = b' := Prod.mk.inj heq
    have hall : taken = (b.heap j).remainingQty := by
      rw [hzero, UInt32.toNat_zero] at hsub
      rw [← UInt32.toNat_inj]
      omega
    have ⟨hcancelled, hgone⟩ := cancelOrder_reduced hb hj hocc hcancel
    refine ⟨hmin, b''.storedOrders, hgone, .inl ⟨hall, rfl, ?_⟩⟩
    rw [← hcancelled, ← hcancel, hzero]
  · rw [if_neg hzero] at h
    obtain ⟨rfl, rfl⟩ := Prod.mk.inj (Option.some.inj h)
    have ⟨others, hbefore, hreduced⟩ :=
      storedOrders_reduced hlt hocc ((b.heap j).remainingQty - taken)
    refine ⟨hmin, others, hbefore, .inr ⟨?_, rfl, hreduced⟩⟩
    have hne : ((b.heap j).remainingQty - taken).toNat ≠ 0 :=
      fun h0 => hzero (UInt32.toNat_inj.mp (h0.trans UInt32.toNat_zero.symm))
    omega

theorem executeOrder_found_cases (hb : FlatOrderMap.Constructed b.orders_)
    (hj : b.orders_.probe id = some j) (hocc : (b.orders_.slots j).occupied = true)
    (hpos : (b.heap j).remainingQty ≠ 0) {qty executed : UInt32}
    (h : b.executeOrder id qty = some (executed, b')) :
    (executed = 0 ∧ b'.storedOrders = b.storedOrders) ∨
      (executed ≠ 0 ∧ b'.storedOrders ≠ b.storedOrders) := by
  have hlt := FlatOrderMap.probe_lt (FlatOrderMap.sized_of_probe hb hj) hj
  obtain ⟨-, others, hbefore, ⟨hall, hgone, -⟩ | ⟨-, rfl, -⟩⟩ :=
    executeOrder_takes hb hj hocc hpos h
  · refine .inr ⟨fun hnone => hpos (hall.symm.trans hnone), ?_⟩
    rw [hgone, hbefore]
    exact (Multiset.lt_cons_self _ _).ne
  · have hsame := storedOrders_reduced_iff hlt hocc executed
    by_cases hnone : executed = 0
    · exact .inl ⟨hnone, hsame.mpr hnone⟩
    · exact .inr ⟨hnone, fun heq => hnone (hsame.mp heq)⟩

/-- An execution that returns executes nothing and changes nothing, or changes
the stored orders. -/
theorem executeOrder_cases (hb : FlatOrderMap.Constructed b.orders_) {qty executed : UInt32}
    (h : b.executeOrder id qty = some (executed, b')) :
    (executed = 0 ∧ b'.storedOrders = b.storedOrders) ∨
      (executed ≠ 0 ∧ b'.storedOrders ≠ b.storedOrders) := by
  cases hj : b.orders_.probe id with
  | none =>
      rw [executeOrder_hangs hj] at h
      cases h
  | some j =>
      cases hocc : (b.orders_.slots j).occupied with
      | false =>
          rw [Coherent.executeOrder_absent hj hocc] at h
          obtain ⟨rfl, rfl⟩ := Prod.mk.inj (Option.some.inj h)
          exact .inl ⟨rfl, rfl⟩
      | true =>
          by_cases hzero : (b.heap j).remainingQty = 0
          · rw [Coherent.executeOrder_spent hj hocc hzero] at h
            obtain ⟨rfl, rfl⟩ := Prod.mk.inj (Option.some.inj h)
            exact .inl ⟨rfl, rfl⟩
          · exact executeOrder_found_cases hb hj hocc hzero h

end OrderBook

end UltraHft.MarketData
