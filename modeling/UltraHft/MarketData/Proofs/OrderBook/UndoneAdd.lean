import UltraHft.MarketData.Proofs.OrderBook.Consistent

/-!
# A cancel undoes an add

The slot that an add fills was empty, so on a consistent book no probe path
crosses it and its erasure moves nothing, be it the last free slot.  The order
that was linked last is unlinked without a trace.
-/

namespace UltraHft.MarketData

open UltraHft.Lib

namespace FlatOrderMap

variable {m m' : FlatOrderMap} {o : Order} {h : Heap} {j : Nat}

theorem probe_filled (hm : Sized m) (hj : m.probe o.orderId = some j) :
    (m.filled j o).probe o.orderId = some j := by
  obtain ⟨hlt, -, hbefore⟩ := (probe_eq_some_iff hm).mp hj
  apply (probe_eq_some_iff (sized_filled hm)).mpr
  refine ⟨hlt, ?_, ?_⟩
  · rw [OpenAddressing.stops_iff, cells_filled, Function.update_self]
    intro s hs
    rw [← Option.some.inj hs]
  · intro q hq hcloser hstop
    apply hbefore q hq hcloser
    have hqj : q ≠ j := by
      rintro rfl
      exact lt_irrefl _ hcloser
    rw [OpenAddressing.stops_iff, cells_filled, Function.update_of_ne hqj] at hstop
    exact OpenAddressing.stops_iff.mpr hstop

theorem vacated_filled (hfree : (m.slots j).occupied = false)
    (hsame : ∀ i, i ≠ j → h i = m.heap i) : ((m.filled j o).withHeap h).vacated j = m.cells := by
  ext1 i
  by_cases hi : i = j
  · rw [hi, vacated, Function.update_self, cells_eq_none.mpr hfree]
  · rw [vacated, Function.update_of_ne hi, OrderBook.cells_withHeap, cells_filled,
      Function.update_of_ne hi, hsame i hi]
    cases hcell : m.cells i with
    | none => rfl
    | some s =>
        obtain ⟨-, rfl⟩ := cells_eq_some.mp hcell
        rfl

theorem sizePred_sizeT {n : Nat} (hn : n < 2 ^ 64) : sizePred (sizeT (n + 1)) = n := by
  unfold sizePred sizeT
  omega

/-- Erasing the key that was inserted last moves no other entry. -/
theorem erase_filled (hm : Sized m)
    (hch : OpenAddressing.Chained m.capacity_ m.home m.cells) (hsize : m.size_ < 2 ^ 64)
    (hj : m.probe o.orderId = some j) (hfree : (m.slots j).occupied = false)
    (hsame : ∀ i, i ≠ j → h i = m.heap i) :
    ∃ slots, ((m.filled j o).withHeap h).erase o.orderId = some (true, { m with slots }) ∧
      cellsOf slots = m.cells := by
  have hlt := probe_lt hm hj
  have hm' : Sized ((m.filled j o).withHeap h) := ⟨hm.pow2, hm.mask⟩
  have hlt' : j < ((m.filled j o).withHeap h).capacity_ := hlt
  obtain ⟨slots, hs⟩ := backwardShift_returns hm' hlt'
  have hocc : (((m.filled j o).withHeap h).slots j).occupied = true :=
    congrArg Slot.occupied slots_filled_self
  have hprobe : ((m.filled j o).withHeap h).probe o.orderId = some j :=
    (OrderBook.probe_withHeap _).trans (probe_filled hm hj)
  have herase := erase_of_occupied hprobe hocc hs
  refine ⟨slots, ?_, ?_⟩
  · have hpred : sizePred ((m.filled j o).withHeap h).size_ = m.size_ := sizePred_sizeT hsize
    rw [hpred] at herase
    exact herase
  · have hrun := backwardShift_run hm' hlt hs
    rw [vacated_filled hfree hsame] at hrun
    exact OpenAddressing.shift_still hlt (home_lt hm) hch (cells_eq_none.mpr hfree) hrun

end FlatOrderMap

namespace OrderBook

variable {b : OrderBook} {o : Order} {j : Nat} {pre post : List PriceLevel} {lv : PriceLevel}

/-- The books agree, except for what free slots still contain. -/
structure Restored (b b' : OrderBook) : Prop where
  instrumentId : b'.instrumentId_ = b.instrumentId_
  bids : b'.bids_ = b.bids_
  asks : b'.asks_ = b.asks_
  capacity : b'.orders_.capacity_ = b.orders_.capacity_
  mask : b'.orders_.mask_ = b.orders_.mask_
  size : b'.orders_.size_ = b.orders_.size_
  occupied : ∀ i, (b'.orders_.slots i).occupied = (b.orders_.slots i).occupied
  orders : ∀ i, (b.orders_.slots i).occupied = true → b'.orders_.slots i = b.orders_.slots i

theorem restored_of_cells {slots : Nat → Slot} (h : FlatOrderMap.cellsOf slots = b.orders_.cells) :
    Restored b { b with orders_ := { b.orders_ with slots } } := by
  have hocc : ∀ i, (slots i).occupied = (b.orders_.slots i).occupied := by
    intro i
    have hiff : (slots i).occupied = false ↔ (b.orders_.slots i).occupied = false := by
      rw [← FlatOrderMap.cellsOf_eq_none, h, FlatOrderMap.cells_eq_none]
    rw [Bool.eq_iff_iff, ← not_iff_not]
    simpa using hiff
  refine ⟨rfl, rfl, rfl, rfl, rfl, rfl, hocc, ?_⟩
  intro i hi
  have hcell : FlatOrderMap.cellsOf slots i = some (b.orders_.slots i) := by
    rw [h]
    exact FlatOrderMap.cells_eq_some.mpr ⟨hi, rfl⟩
  exact (FlatOrderMap.cellsOf_eq_some.mp hcell).2

theorem addOrder_eq (hj : b.orders_.probe o.orderId = some j)
    (hfree : (b.orders_.slots j).occupied = false)
    (hspec : findOrInsert (b.levels o.side) o.price (cmp o.side) =
      (pre ++ lv :: post, pre.length)) :
    b.addOrder (some o) = some (true, { b with orders_ := b.orders_.filled j o }.linkAt
      o.side (pre ++ lv :: post) pre.length j) := by
  rw [Coherent.addOrder_free hj hfree, hspec]

theorem setLevels_self (b : OrderBook) (side : Side) : b.setLevels side (b.levels side) = b := by
  cases side <;> rfl

/-- Unlinking the order that was linked last. -/
theorem unlink_linkAt {side : Side} {walk : List Nat} (hlinks : lv.Links b.heap walk)
    (hj : j ∉ walk) (hsorted : Sorted side (pre ++ lv :: post)) (hside : (b.heap j).side = side)
    (hprice : (b.heap j).price = lv.price_) :
    ∃ h, (∀ i, i ≠ j → h i = b.heap i) ∧
      (b.linkAt side (pre ++ lv :: post) pre.length j).unlink j =
        { b with orders_ := b.orders_.withHeap h }.setLevels side (pre ++ kept lv ++ post) := by
  obtain ⟨hlv, hrest⟩ := PriceLevel.removeOrder_addOrder hlinks hj
  have hlink : b.linkAt side (pre ++ lv :: post) pre.length j = _ := linkAt_eq
  have hheap : (b.linkAt side (pre ++ lv :: post) pre.length j).heap = _ := linkAt_heap
  generalize b.linkAt side (pre ++ lv :: post) pre.length j = b₁ at hlink hheap ⊢
  have hsame : Heap.SameOrders b.heap (lv.addOrder b.heap j).2 := PriceLevel.addOrder_sameOrders
  have hprice₀ : (lv.addOrder b.heap j).1.price_ = lv.price_ := PriceLevel.addOrder_price
  obtain ⟨-, -, hside₁, hprice₁, -⟩ := Order.mk.inj (hsame j)
  rw [← hheap] at hside₁ hprice₁ hlv hrest
  have hlev : b₁.levels (b₁.heap j).side = pre ++ (lv.addOrder b.heap j).1 :: post := by
    rw [hside₁, hside, hlink, levels_setLevels]
    simp
  have hidx := findIdx_eq (hsorted.replace hprice₀)
    (hprice₀.trans (hprice.symm.trans hprice₁.symm))
  refine ⟨_, hrest, ?_⟩
  rw [unlink_eq hlev hidx, hside₁, hside, hlv, hlink]
  cases side <;> rfl

theorem Consistent.probe_of_absent (h : Consistent b)
    (habs : ∀ p, b.Stored p → (b.heap p).orderId ≠ o.orderId) :
    ∃ j, b.orders_.probe o.orderId = some j ∧ (b.orders_.slots j).occupied = false := by
  apply FlatOrderMap.probe_of_absent h.sized h.room
  intro p hp hocc
  rw [h.keyed ⟨hp, hocc⟩]
  exact habs p ⟨hp, hocc⟩

theorem Consistent.links_filled (h : Consistent b) (hfree : (b.orders_.slots j).occupied = false)
    {side : Side} {price : UInt64} (hcase : b.levels side = pre ++ lv :: post ∨
      b.levels side = pre ++ post ∧ lv = PriceLevel.make price) :
    ∃ walk, lv.Links (b.orders_.filled j o).heap walk ∧ j ∉ walk ∧
      pre ++ kept lv ++ post = b.levels side := by
  rcases hcase with hin | ⟨hin, rfl⟩
  · obtain ⟨walk, hne, -, hlinks, hmem⟩ := h.linked side lv (by simp [hin])
    have hjw : j ∉ walk := by
      intro hjw
      rw [((hmem j).mp hjw).1.2] at hfree
      cases hfree
    have hempty : ¬ lv.isEmpty := fun he => hne ((PriceLevel.isEmpty_iff hlinks).mp he)
    refine ⟨walk, hlinks.congr ?_, hjw, by simp [kept, hempty, hin]⟩
    intro i hi
    have hij : i ≠ j := by
      rintro rfl
      exact hjw hi
    rw [FlatOrderMap.heap_filled_of_ne hij]
    exact ⟨rfl, rfl⟩
  · exact ⟨[], PriceLevel.make_links .., List.not_mem_nil, by simp [kept, hin]; rfl⟩

/-- **A cancel after an add restores the book.** -/
theorem cancelOrder_addOrder (h : Consistent b)
    (habs : ∀ p, b.Stored p → (b.heap p).orderId ≠ o.orderId) :
    ∃ b₁ b₂, b.addOrder (some o) = some (true, b₁) ∧
      b₁.cancelOrder o.orderId = some (true, b₂) ∧ Restored b b₂ := by
  obtain ⟨j, hj, hfree⟩ := h.probe_of_absent habs
  obtain ⟨pre, lv, post, hspec, hprice, hsorted, hcase⟩ :=
    findOrInsert_spec (h.sorted o.side) o.price
  obtain ⟨walk, hlinks, hjw, hkept⟩ := h.links_filled (o := o) hfree hcase
  have hheap : (b.orders_.filled j o).heap j = o := FlatOrderMap.heap_filled_self
  obtain ⟨hp, hsame, hunlink⟩ := unlink_linkAt (b := { b with orders_ := b.orders_.filled j o })
    hlinks hjw hsorted (congrArg Order.side hheap)
    ((congrArg Order.price hheap).trans hprice.symm)
  have hsame' : ∀ i, i ≠ j → hp i = b.orders_.heap i :=
    fun i hi => (hsame i hi).trans (FlatOrderMap.heap_filled_of_ne hi)
  have hch := ((FlatOrderMap.findable_iff h.sized).mp h.findable).1
  obtain ⟨slots, herase, hcells⟩ :=
    FlatOrderMap.erase_filled h.sized hch h.size_lt hj hfree hsame'
  refine ⟨_, _, addOrder_eq hj hfree hspec, ?_, restored_of_cells hcells⟩
  obtain ⟨h₁, -, horders⟩ := linkAt_orders { b with orders_ := b.orders_.filled j o } o.side
    (pre ++ lv :: post) pre.length j
  rw [hkept] at hunlink
  generalize ({ b with orders_ := b.orders_.filled j o } : OrderBook).linkAt o.side
    (pre ++ lv :: post) pre.length j = b₁ at hunlink horders ⊢
  have hprobe : b₁.orders_.probe o.orderId = some j := by
    rw [horders, probe_withHeap]
    exact FlatOrderMap.probe_filled h.sized hj
  have hocc : (b₁.orders_.slots j).occupied = true := by
    rw [horders]
    exact congrArg Slot.occupied FlatOrderMap.slots_filled_self
  have hback : b₁.unlink j = { b with orders_ := (b.orders_.filled j o).withHeap hp } := by
    rw [hunlink, ← levels_orders b o.side ((b.orders_.filled j o).withHeap hp)]
    exact setLevels_self _ _
  have herase' : (b₁.unlink j).orders_.erase o.orderId =
      some (true, { b.orders_ with slots }) := by
    rw [hback]
    exact herase
  rw [Coherent.cancelOrder_present hprobe hocc herase', hback]

/-- A third bid at the price of the first one. -/
theorem cancelOrder_addOrder_thirdBid : ∃ b, Consistent b ∧ b.orderCount = 2 ∧
    ∃ b₁ b₂, b.addOrder (some (Order.make 3 1 .buy 100 9)) = some (true, b₁) ∧
      b₁.cancelOrder 3 = some (true, b₂) ∧ Restored b b₂ := by
  obtain ⟨s, hexec, hcons⟩ := exec_adds_consistent 1
    [some (Order.make 1 1 .buy 100 5), some (Order.make 2 1 .buy 101 7)] (by decide)
  have hbook : (exec 1 [.add (some (Order.make 1 1 .buy 100 5)),
      .add (some (Order.make 2 1 .buy 101 7))]).map (fun s =>
        (s.1.orderCount, s.1.orders_.find 3)) = some (2, some none) := by decide
  rw [List.map_cons, List.map_singleton] at hexec
  rw [hexec, Option.map_some] at hbook
  obtain ⟨hcount, hfind⟩ := Prod.mk.inj (Option.some.inj hbook)
  refine ⟨s.1, hcons, hcount, cancelOrder_addOrder hcons ?_⟩
  intro p hp hid
  have hfound := hcons.found p hp
  rw [hid] at hfound
  cases hfind.symm.trans hfound

end OrderBook

end UltraHft.MarketData
