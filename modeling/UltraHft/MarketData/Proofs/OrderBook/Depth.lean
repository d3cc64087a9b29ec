import UltraHft.MarketData.Proofs.OrderBook.DistinctSlots

/-!
# The depth at a price

The total of a level is accumulated in 32 bits.  It is the number of shares left
of the orders in the level as long as that number fits, and then only if the
walk through the level ends.
-/

namespace UltraHft.MarketData

open UltraHft.Lib
open UltraHft.Lib.DoublyLinked (Walks)

def sharesLeft (orders : List Order) : Nat := (orders.map fun o => o.remainingQty.toNat).sum

theorem sharesLeft_cons (o : Order) (orders : List Order) :
    sharesLeft (o :: orders) = o.remainingQty.toNat + sharesLeft orders :=
  List.sum_cons

theorem sharesLeft_unlinked (h : Heap) (walk : List Nat) :
    sharesLeft (walk.map fun p => (h p).unlinked) = sharesLeft (walk.map h) := by
  simp [sharesLeft, Order.unlinked, Function.comp_def]

namespace PriceLevel

/-- The loop of `get_total_qty` adds up the walk, modulo `2 ^ 32`. -/
theorem run_totalBody {h : Heap} {p : Ptr} {walk : List Nat} (hw : Walks h.nexts p walk)
    (total : UInt32) : Loop.run (totalBody h) (walk.length + 1) (p, total) =
      some (total + UInt32.ofNat (sharesLeft (walk.map h))) := by
  induction walk generalizing p total with
  | nil =>
      obtain rfl := hw
      simp [Loop.run, totalBody, sharesLeft]
  | cons i walk ih =>
      obtain ⟨rfl, hrest⟩ := hw
      have hnext : totalBody h (some i, total) =
          some (.inl ((h i).next, total + (h i).remainingQty)) := rfl
      calc Loop.run (totalBody h) (walk.length + 1 + 1) (some i, total)
        _ = Loop.run (totalBody h) (walk.length + 1) ((h i).next, total + (h i).remainingQty) :=
            Loop.run_succ_next hnext
        _ = some (total + (h i).remainingQty + UInt32.ofNat (sharesLeft (walk.map h))) :=
            ih hrest _
        _ = some (total + UInt32.ofNat (sharesLeft ((i :: walk).map h))) := by
            rw [List.map_cons, sharesLeft_cons, UInt32.ofNat_add, UInt32.ofNat_toNat,
              UInt32.add_assoc]

end PriceLevel

namespace OrderBook

variable {b : OrderBook} {side : Side} {price : UInt64} {walk : List Nat}

/-- The orders that the level of the price links: none if there is no level. -/
def LinkedAt (b : OrderBook) (side : Side) (price : UInt64) (walk : List Nat) : Prop :=
  match (b.levels side).find? fun lv => lv.price_ == price with
  | none => walk = []
  | some lv => Walks b.heap.nexts lv.head_ walk

/-- The query returns the shares left of the orders that the level links. -/
def DepthExact (b : OrderBook) (side : Side) (price : UInt64) : Prop :=
  ∃ walk, b.LinkedAt side price walk ∧
    ∃ fuel qty, qtyAt fuel b side price = some qty ∧
      qty.toNat = sharesLeft (walk.map b.heap)

theorem LinkedAt.unique {walk' : List Nat} (h : b.LinkedAt side price walk)
    (h' : b.LinkedAt side price walk') : walk = walk' := by
  unfold LinkedAt at h h'
  cases hfind : (b.levels side).find? fun lv => lv.price_ == price with
  | none =>
      rw [hfind] at h h'
      exact h.trans h'.symm
  | some lv =>
      rw [hfind] at h h'
      exact Walks.unique h h'

theorem LinkedAt.qtyAt (h : b.LinkedAt side price walk) :
    qtyAt (walk.length + 1) b side price = some (UInt32.ofNat (sharesLeft (walk.map b.heap))) := by
  unfold LinkedAt at h
  unfold OrderBook.qtyAt
  cases hfind : (b.levels side).find? fun lv => lv.price_ == price with
  | none =>
      rw [hfind] at h
      obtain rfl := h
      rfl
  | some lv =>
      rw [hfind] at h
      change Loop.run (PriceLevel.totalBody b.heap) _ (lv.head_, 0) = _
      rw [PriceLevel.run_totalBody h, UInt32.zero_add]

theorem depthExact_iff : b.DepthExact side price ↔
    ∃ walk, b.LinkedAt side price walk ∧ sharesLeft (walk.map b.heap) < 2 ^ 32 := by
  constructor
  · intro ⟨walk, hlinked, fuel, qty, _, hqty⟩
    exact ⟨walk, hlinked, hqty ▸ qty.toNat_lt⟩
  · intro ⟨walk, hlinked, hfits⟩
    exact ⟨walk, hlinked, walk.length + 1, _, hlinked.qtyAt, UInt32.toNat_ofNat_of_lt' hfits⟩

/-- On a coherent book the walk ends, and it visits the orders of the ledger. -/
theorem Kept.linkedAt {s : Recorded} (h : Kept s) (side : Side) (price : UInt64) :
    ∃ walk, s.1.LinkedAt side price walk ∧
      sharesLeft (walk.map s.1.heap) = sharesLeft (s.2.filter (restsAt side price)) := by
  obtain ⟨b, ledger⟩ := s
  obtain ⟨ptrs, hcoh, hent⟩ := h
  dsimp only at hcoh hent ⊢
  refine ⟨b.queue ptrs side price, ?_, ?_⟩
  · unfold LinkedAt
    cases hfind : (b.levels side).find? fun lv => lv.price_ == price with
    | none =>
        apply hcoh.laddered.queue_eq_nil
        intro lv hlv heq
        exact List.find?_eq_none.mp hfind lv hlv (by simpa using heq)
    | some lv =>
        have hprice : lv.price_ = price := by simpa using List.find?_some hfind
        have hlinks := hcoh.laddered.linked side lv (List.mem_of_find?_eq_some hfind)
        rw [hprice] at hlinks
        exact hlinks.walks
  · rw [← hent, entries_filter, sharesLeft_unlinked]

/-- **The depth that the queries report is exact where the walk through the
level ends and the shares left in it fit in 32 bits.**  The walk always ends in
a run that relocates no order; it then visits the orders of the ledger. -/
theorem exec_depthExact_iff (instrumentId : UInt32) (calls : List BookCall) (s : Recorded)
    (hexec : exec instrumentId calls = some s) (side : Side) (price : UInt64) :
    (s.1.DepthExact side price ↔
      ∃ walk, s.1.LinkedAt side price walk ∧ sharesLeft (walk.map s.1.heap) < 2 ^ 32) ∧
    (KeepsRoom instrumentId calls → NeverRelocates instrumentId calls →
      (s.1.DepthExact side price ↔
        sharesLeft (s.2.filter (restsAt side price)) < 2 ^ 32)) := by
  refine ⟨depthExact_iff, ?_⟩
  intro hroom hstill
  obtain ⟨walk, hlinked, hsum⟩ := (exec_kept hroom hstill hexec).linkedAt side price
  rw [depthExact_iff, ← hsum]
  constructor
  · intro ⟨walk', hlinked', hfits⟩
    rwa [hlinked.unique hlinked']
  · exact fun hfits => ⟨walk, hlinked, hfits⟩

theorem exec_depthExact_iff_threeOrders : ∃ s, exec 1 threeOrders = some s ∧
    sharesLeft (s.2.filter (restsAt .buy 100)) = 8 ∧ s.1.DepthExact .buy 100 := by
  have hsum : (exec 1 threeOrders).map (fun s =>
      sharesLeft (s.2.filter (restsAt .buy 100))) = some 8 := by decide
  obtain ⟨s, hexec, hsum⟩ := Option.map_eq_some_iff.mp hsum
  have hstill : NeverRelocates 1 threeOrders :=
    neverRelocates_of_distinctSlots 1 (leavesRoom_of_length (by decide)) (by decide)
  have hexact := (exec_depthExact_iff 1 threeOrders s hexec .buy 100).2 (by decide) hstill
  exact ⟨s, hexec, hsum, hexact.mpr (by rw [hsum]; decide)⟩

def hugeBids : List BookCall :=
  [.add (some (Order.make 1 1 .buy 100 2147483648)),
    .add (some (Order.make 2 1 .buy 100 2147483648))]

theorem hugeBids_not_depthExact :
    ¬ ∀ (instrumentId : UInt32) (calls : List BookCall) (s : Recorded),
      (∀ call ∈ calls, ∀ id, call ≠ .cancel id) → exec instrumentId calls = some s →
        ∀ side price, s.1.DepthExact side price := by
  intro hall
  have hsum : (exec 1 hugeBids).map (fun s =>
      sharesLeft (s.2.filter (restsAt .buy 100))) = some (2 ^ 32) := by decide
  obtain ⟨s, hexec, hsum⟩ := Option.map_eq_some_iff.mp hsum
  have hexact := hall 1 hugeBids s (by simp [hugeBids]) hexec .buy 100
  obtain ⟨walk, hlinked, hfits⟩ := depthExact_iff.mp hexact
  have hkept := exec_kept (by decide) (neverRelocates_adds (by simp [hugeBids])) hexec
  obtain ⟨walk', hlinked', hsum'⟩ := hkept.linkedAt .buy 100
  rw [hlinked.unique hlinked', hsum', hsum] at hfits
  exact lt_irrefl _ hfits

example : (exec 1 hugeBids).map (fun s => getBidQtyAt 3 s.1 100) = some (some 0) := by decide

end OrderBook

end UltraHft.MarketData
