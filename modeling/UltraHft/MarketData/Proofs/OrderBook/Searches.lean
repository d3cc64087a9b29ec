import UltraHft.MarketData.Proofs.OrderBook.Ledger
import UltraHft.MarketData.Proofs.OrderBook.Levels

/-!
# What the searches rely on

Whatever the index does to the links, the level vectors stay strictly sorted and
no level is left without a first order.  So the bisection and the linear search
end at the same level, and the first level of a side has its best price.
-/

namespace UltraHft.MarketData.OrderBook

open UltraHft.Lib

/-- The vectors are strictly sorted, and each level points to a first and to a
last order. -/
structure Tidy (b : OrderBook) : Prop where
  sorted : ∀ side, Sorted side (b.levels side)
  headed : ∀ side, ∀ lv ∈ b.levels side, lv.head_ ≠ none
  tailed : ∀ side, ∀ lv ∈ b.levels side, lv.tail_ ≠ none

section Steps

variable {b b' : OrderBook} {side : Side}
  {lv : PriceLevel} {h : Heap} {order : Nat}

theorem tidy_new (instrumentId : UInt32) : (new instrumentId).Tidy := by
  have hnil : ∀ side, (new instrumentId).levels side = [] := by
    intro side
    cases side <;> rfl
  constructor
  · intro side
    rw [hnil side]
    exact List.Pairwise.nil
  · simp [hnil]
  · simp [hnil]

theorem headed_addOrder (h : Heap) (order : Nat) : (lv.addOrder h order).1.head_ ≠ none ∧
    (lv.addOrder h order).1.tail_ ≠ none := by
  unfold PriceLevel.addOrder
  cases hhead : lv.head_ with
  | none => simp
  | some first => simp

theorem headed_removeOrder (htail : lv.tail_ ≠ none)
    (hempty : ¬ (lv.removeOrder h order).1.isEmpty) :
    (lv.removeOrder h order).1.head_ ≠ none ∧ (lv.removeOrder h order).1.tail_ ≠ none := by
  have hhead' : (lv.removeOrder h order).1.head_ ≠ none := by
    simpa [PriceLevel.isEmpty] using hempty
  refine ⟨hhead', ?_⟩
  rw [lv.removeOrder_head] at hhead'
  rw [lv.removeOrder_tail]
  cases hnext : (h order).next with
  | some next => exact htail
  | none =>
      -- an order with neither neighbour would have been all of the level
      cases hprev : (h order).prev with
      | some prev => simp
      | none => simp [hnext, hprev] at hhead'

theorem Tidy.ends (h : b.Tidy) (side : Side) : ∀ lv ∈ b.levels side,
    lv.head_ ≠ none ∧ lv.tail_ ≠ none :=
  fun lv hlv => ⟨h.headed side lv hlv, h.tailed side lv hlv⟩

theorem Tidy.setLevels (h : b.Tidy) (side : Side) (levels : List PriceLevel)
    (hsorted : Sorted side levels)
    (hends : ∀ lv ∈ levels, lv.head_ ≠ none ∧ lv.tail_ ≠ none)
    (hside : b'.levels side = levels)
    (hother : ∀ side', side' ≠ side → b'.levels side' = b.levels side') : b'.Tidy := by
  have hall : ∀ side', Sorted side' (b'.levels side') ∧
      ∀ lv ∈ b'.levels side', lv.head_ ≠ none ∧ lv.tail_ ≠ none := by
    intro side'
    by_cases hs : side' = side
    · rw [hs, hside]
      exact ⟨hsorted, hends⟩
    · rw [hother side' hs]
      exact ⟨h.sorted side', h.ends side'⟩
  constructor
  · exact fun side' => (hall side').1
  · exact fun side' lv hlv => ((hall side').2 lv hlv).1
  · exact fun side' lv hlv => ((hall side').2 lv hlv).2

/-- Where one level takes a place among old ones, it is enough that it has ends. -/
theorem Tidy.ends_among (h : b.Tidy) {pre post : List PriceLevel}
    (hrest : ∀ x ∈ pre ++ post, x ∈ b.levels side)
    (hends : lv.head_ ≠ none ∧ lv.tail_ ≠ none) :
    ∀ x ∈ pre ++ lv :: post, x.head_ ≠ none ∧ x.tail_ ≠ none := by
  intro x hx
  rcases List.mem_append.mp hx with hpre | hmem
  · exact h.ends side x (hrest x (List.mem_append_left _ hpre))
  · rcases List.mem_cons.mp hmem with rfl | hpost
    · exact hends
    · exact h.ends side x (hrest x (List.mem_append_right _ hpost))

theorem Tidy.congr (h : b.Tidy) (hlevels : ∀ side, b'.levels side = b.levels side) :
    b'.Tidy :=
  h.setLevels .buy _ (h.sorted .buy) (h.ends .buy) (hlevels .buy) fun side _ => hlevels side

theorem Tidy.linkAt (h : b.Tidy) (side : Side) (price : UInt64) (stored : Nat) :
    (b.linkAt side (findOrInsert (b.levels side) price (cmp side)).1
      (findOrInsert (b.levels side) price (cmp side)).2 stored).Tidy := by
  obtain ⟨pre, lv, post, hfind, -, hsorted, hcase⟩ := findOrInsert_spec (h.sorted side) price
  have hrest : ∀ x ∈ pre ++ post, x ∈ b.levels side := by
    intro x hx
    rcases hcase with hlevels | ⟨hlevels, -⟩
    · rw [hlevels]
      simp at hx ⊢
      tauto
    · rwa [hlevels]
  have hget : (pre ++ lv :: post)[pre.length]? = some lv := by simp
  rw [hfind]
  unfold OrderBook.linkAt
  dsimp only
  rw [hget]
  apply h.setLevels side (pre ++ (lv.addOrder b.heap stored).1 :: post)
  · exact hsorted.replace PriceLevel.addOrder_price
  · exact h.ends_among hrest (headed_addOrder b.heap stored)
  · simp
  · intro side' hs
    rw [levels_setLevels_of_ne _ _ _ hs, levels_orders]

/-- The level of an order that is unlinked stays, with both ends, or goes. -/
theorem Tidy.unlink (h : b.Tidy) (order : Nat) : (b.unlink order).Tidy := by
  unfold OrderBook.unlink
  dsimp only
  split
  · exact h
  case h_2 lv hget =>
    generalize (b.heap order).side = side at *
    generalize hidx : (b.levels side).findIdx
      (fun lv => lv.price_ == (b.heap order).price) = it at *
    obtain ⟨hit, hlv⟩ := List.getElem?_eq_some_iff.mp hget
    have hsplit : b.levels side =
        (b.levels side).take it ++ lv :: (b.levels side).drop (it + 1) := by
      rw [← hlv, List.getElem_cons_drop, List.take_append_drop]
    have hsorted := h.sorted side
    rw [hsplit] at hsorted
    have hmem : lv ∈ b.levels side := List.mem_of_getElem? hget
    have hrest : ∀ x ∈ (b.levels side).take it ++ (b.levels side).drop (it + 1),
        x ∈ b.levels side := by
      intro x hx
      rcases List.mem_append.mp hx with hx | hx
      · exact List.mem_of_mem_take hx
      · exact List.mem_of_mem_drop hx
    by_cases hempty : (lv.removeOrder b.heap order).1.isEmpty
    · rw [if_pos hempty]
      apply h.setLevels side ((b.levels side).take it ++ (b.levels side).drop (it + 1))
        hsorted.remove
      · exact fun x hx => h.ends side x (hrest x hx)
      · rw [levels_setLevels, List.eraseIdx_eq_take_drop_succ]
      · intro side' hs
        rw [levels_setLevels_of_ne _ _ _ hs, levels_orders]
    · rw [if_neg hempty]
      apply h.setLevels side ((b.levels side).take it ++
          (lv.removeOrder b.heap order).1 :: (b.levels side).drop (it + 1))
        (hsorted.replace PriceLevel.removeOrder_price)
      · exact h.ends_among hrest (headed_removeOrder (h.tailed side lv hmem) hempty)
      · rw [levels_setLevels, List.set_eq_take_append_cons_drop, if_pos hit]
      · intro side' hs
        rw [levels_setLevels_of_ne _ _ _ hs, levels_orders]

theorem Tidy.addOrder (h : b.Tidy) {order : Option Order} {added : Bool}
    (hrun : b.addOrder order = some (added, b')) : b'.Tidy := by
  cases order with
  | none =>
      obtain ⟨-, rfl⟩ := Prod.mk.inj (Option.some.inj hrun)
      exact h
  | some order =>
      simp only [OrderBook.addOrder, Option.bind_eq_bind, Option.bind_eq_some_iff] at hrun
      obtain ⟨found, -, hrun⟩ := hrun
      split_ifs at hrun
      · obtain ⟨-, rfl⟩ := Prod.mk.inj (Option.some.inj hrun)
        exact h
      · obtain ⟨⟨stored, orders⟩, -, hlink⟩ := Option.bind_eq_some_iff.mp hrun
        obtain ⟨-, rfl⟩ := Prod.mk.inj (Option.some.inj hlink)
        have htidy : Tidy { b with orders_ := orders } :=
          h.congr fun side => levels_orders b side orders
        have hlinked := htidy.linkAt order.side order.price stored
        rwa [levels_orders] at hlinked

theorem Tidy.cancelOrder (h : b.Tidy) {id : UInt64} {cancelled : Bool}
    (hrun : b.cancelOrder id = some (cancelled, b')) : b'.Tidy := by
  obtain ⟨found, -, hrun⟩ := Option.bind_eq_some_iff.mp hrun
  cases found with
  | none =>
      obtain ⟨-, rfl⟩ := Prod.mk.inj (Option.some.inj hrun)
      exact h
  | some order =>
      obtain ⟨⟨erased, orders⟩, -, herase⟩ := Option.bind_eq_some_iff.mp hrun
      obtain ⟨-, rfl⟩ := Prod.mk.inj (Option.some.inj herase)
      exact (h.unlink order).congr fun side => levels_orders _ side orders

theorem Tidy.executeOrder (h : b.Tidy) {id : UInt64} {qty executed : UInt32}
    (hrun : b.executeOrder id qty = some (executed, b')) : b'.Tidy := by
  obtain ⟨found, -, hrun⟩ := Option.bind_eq_some_iff.mp hrun
  cases found with
  | none =>
      obtain ⟨-, rfl⟩ := Prod.mk.inj (Option.some.inj hrun)
      exact h
  | some order =>
      dsimp only at hrun
      generalize (if qty > (b.heap order).remainingQty then (b.heap order).remainingQty
        else qty) = executed' at hrun
      have htidy : Tidy { b with orders_ := b.orders_.withHeap (b.heap.setRemainingQty order
          ((b.heap order).remainingQty - executed')) } :=
        h.congr fun side => levels_orders b side _
      split_ifs at hrun
      · obtain ⟨-, rfl⟩ := Prod.mk.inj (Option.some.inj hrun)
        exact h
      · obtain ⟨⟨cancelled, b₁⟩, hcancel, hrun⟩ := Option.bind_eq_some_iff.mp hrun
        obtain ⟨-, rfl⟩ := Prod.mk.inj (Option.some.inj hrun)
        exact htidy.cancelOrder hcancel
      · obtain ⟨-, rfl⟩ := Prod.mk.inj (Option.some.inj hrun)
        exact htidy

theorem Tidy.run (h : b.Tidy) {call : BookCall} {answer : Answer}
    (hrun : call.run b = some (answer, b')) : b'.Tidy := by
  cases call with
  | add order =>
      obtain ⟨⟨added, b₁⟩, hadd, heq⟩ := Option.map_eq_some_iff.mp hrun
      obtain ⟨-, rfl⟩ := Prod.mk.inj heq
      exact h.addOrder hadd
  | cancel id =>
      obtain ⟨⟨cancelled, b₁⟩, hcancel, heq⟩ := Option.map_eq_some_iff.mp hrun
      obtain ⟨-, rfl⟩ := Prod.mk.inj heq
      exact h.cancelOrder hcancel
  | execute id qty =>
      obtain ⟨⟨executed, b₁⟩, hexecute, heq⟩ := Option.map_eq_some_iff.mp hrun
      obtain ⟨-, rfl⟩ := Prod.mk.inj heq
      exact h.executeOrder hexecute

theorem exec_tidy {instrumentId : UInt32} {calls : List BookCall} {s : Recorded}
    (hexec : exec instrumentId calls = some s) : s.1.Tidy := by
  apply Runs.exec_partial (fun _ (s : Recorded) => s.1.Tidy) (tidy_new instrumentId) _ hexec
  intro pre call t t' _ _ htidy hstep
  obtain ⟨⟨answer, b'⟩, hrun, rfl⟩ := Option.map_eq_some_iff.mp hstep
  exact htidy.run hrun

end Steps

/-! ## The searches -/

/-- The position at which the linear searches for a price end. -/
def linearSearch (b : OrderBook) (side : Side) (price : UInt64) : Nat :=
  (b.levels side).findIdx fun lv => lv.price_ == price

/-- The vector of a side after `remove_order` on its level at `it`. -/
def levelsWithout (b : OrderBook) (side : Side) (it order : Nat) : List PriceLevel :=
  match (b.levels side)[it]? with
  | none => b.levels side
  | some lv =>
      let lv := (lv.removeOrder b.heap order).1
      if lv.isEmpty then (b.levels side).eraseIdx it else (b.levels side).set it lv

/-- All searches for a price end at its level, if there is one: `find_or_insert`
takes it as it is, and only where there is none it inserts a level.  A stored order
of that price is unlinked from that level and from no other. -/
structure SearchesAgree (b : OrderBook) (side : Side) (price : UInt64) : Prop where
  hit : ∀ lv, (b.levels side)[b.linearSearch side price]? = some lv → lv.price_ = price ∧
    findOrInsert (b.levels side) price (cmp side) = (b.levels side, b.linearSearch side price)
  miss : (b.levels side)[b.linearSearch side price]? = none →
    (∀ lv ∈ b.levels side, lv.price_ ≠ price) ∧ ∃ pre post, b.levels side = pre ++ post ∧
      findOrInsert (b.levels side) price (cmp side) =
        (pre ++ PriceLevel.make price :: post, pre.length)
  quantity : ∀ fuel, qtyAt fuel b side price =
    match (b.levels side)[b.linearSearch side price]? with
    | none => some 0
    | some lv => lv.getTotalQty fuel b.heap
  cancel : ∀ id order, b.orders_.find id = some (some order) → (b.heap order).side = side →
    (b.heap order).price = price → ∀ cancelled b', b.cancelOrder id = some (cancelled, b') →
      b'.levels side = b.levelsWithout side (b.linearSearch side price) order ∧
      ∀ side', side' ≠ side → b'.levels side' = b.levels side'

/-- The first level of a side has its best price. -/
structure FrontIsExtreme (b : OrderBook) : Prop where
  bid : ∀ price, b.bestBid = some price → ∀ lv ∈ b.bids_, lv.price_ ≤ price
  ask : ∀ price, b.bestAsk = some price → ∀ lv ∈ b.asks_, price ≤ lv.price_

section Consequences

variable {b : OrderBook} {side : Side}

theorem levels_unlink (b : OrderBook) (order : Nat) :
    (b.unlink order).levels (b.heap order).side = b.levelsWithout (b.heap order).side
        (b.linearSearch (b.heap order).side (b.heap order).price) order ∧
      ∀ side', side' ≠ (b.heap order).side → (b.unlink order).levels side' = b.levels side' := by
  unfold OrderBook.unlink levelsWithout linearSearch
  dsimp only
  cases (b.levels (b.heap order).side)[(b.levels (b.heap order).side).findIdx
      fun lv => lv.price_ == (b.heap order).price]? with
  | none => exact ⟨rfl, fun _ _ => rfl⟩
  | some lv =>
      refine ⟨levels_setLevels .., ?_⟩
      intro side' hne
      dsimp only
      rw [levels_setLevels_of_ne _ _ _ hne, levels_orders]

theorem levels_cancelOrder {id : UInt64} {order : Nat} {cancelled : Bool} {b' : OrderBook}
    (hstored : b.orders_.find id = some (some order))
    (hrun : b.cancelOrder id = some (cancelled, b')) (side : Side) :
    b'.levels side = (b.unlink order).levels side := by
  rw [cancelOrder, hstored, Option.bind_eq_bind, Option.bind_some] at hrun
  obtain ⟨⟨erased, orders⟩, -, herase⟩ := Option.bind_eq_some_iff.mp hrun
  obtain ⟨-, rfl⟩ := Prod.mk.inj (Option.some.inj herase)
  exact levels_orders _ side orders

theorem Tidy.searchesAgree (h : b.Tidy) (side : Side) (price : UInt64) :
    SearchesAgree b side price := by
  obtain ⟨pre, lv, post, hfind, hprice, hsorted, hcase⟩ :=
    findOrInsert_spec (h.sorted side) price
  have hquantity : ∀ fuel, qtyAt fuel b side price =
      match (b.levels side)[b.linearSearch side price]? with
      | none => some 0
      | some lv => lv.getTotalQty fuel b.heap := by
    intro fuel
    rw [qtyAt, List.find?_eq_getElem?_findIdx]
    rfl
  have hcancel : ∀ id order, b.orders_.find id = some (some order) →
      (b.heap order).side = side → (b.heap order).price = price → ∀ cancelled b',
      b.cancelOrder id = some (cancelled, b') →
        b'.levels side = b.levelsWithout side (b.linearSearch side price) order ∧
        ∀ side', side' ≠ side → b'.levels side' = b.levels side' := by
    rintro id order hstored rfl rfl cancelled b' hrun
    obtain ⟨hhere, helsewhere⟩ := levels_unlink b order
    refine ⟨(levels_cancelOrder hstored hrun _).trans hhere, ?_⟩
    intro side' hne
    exact (levels_cancelOrder hstored hrun side').trans (helsewhere side' hne)
  rcases hcase with hlevels | ⟨hlevels, rfl⟩
  · have hlinear : b.linearSearch side price = pre.length := by
      rw [linearSearch, hlevels]
      exact findIdx_eq hsorted hprice
    have hget : (b.levels side)[pre.length]? = some lv := by simp [hlevels]
    constructor
    · intro lv' hlv'
      rw [hlinear, hget] at hlv'
      obtain rfl := Option.some.inj hlv'
      exact ⟨hprice, by rw [hfind, hlinear, hlevels]⟩
    · intro hnone
      rw [hlinear, hget] at hnone
      cases hnone
    · exact hquantity
    · exact hcancel
  · have hne : ∀ lv ∈ b.levels side, lv.price_ ≠ price := by
      intro lv hlv
      rw [hlevels] at hlv
      exact hsorted.price_ne hlv
    have hlinear : b.linearSearch side price = (b.levels side).length := by
      apply List.findIdx_eq_length_of_false
      intro lv hlv
      simpa using hne lv hlv
    have hget : (b.levels side)[(b.levels side).length]? = none := by simp
    constructor
    · intro lv' hlv'
      rw [hlinear, hget] at hlv'
      cases hlv'
    · intro _
      exact ⟨hne, pre, post, hlevels, hfind⟩
    · exact hquantity
    · exact hcancel

theorem Sorted.front {first lv : PriceLevel} {rest : List PriceLevel}
    (hsorted : Sorted side (first :: rest)) (hlv : lv ∈ first :: rest) :
    lv = first ∨ cmp side first.price_ lv.price_ := by
  rcases List.mem_cons.mp hlv with heq | hmem
  · exact .inl heq
  · exact .inr ((List.pairwise_cons.mp hsorted).1 lv hmem)

theorem Tidy.frontIsExtreme (h : b.Tidy) : FrontIsExtreme b := by
  constructor
  case bid =>
    intro price hbest lv hlv
    obtain ⟨first, hfirst, rfl⟩ := Option.map_eq_some_iff.mp hbest
    obtain ⟨rest, hbids⟩ := List.head?_eq_some_iff.mp hfirst
    have hsorted : Sorted .buy b.bids_ := h.sorted .buy
    rw [hbids] at hsorted hlv
    rcases hsorted.front hlv with rfl | hless
    · exact UInt64.le_refl _
    · exact UInt64.le_of_lt (cmp_iff.mp hless)
  case ask =>
    intro price hbest lv hlv
    obtain ⟨first, hfirst, rfl⟩ := Option.map_eq_some_iff.mp hbest
    obtain ⟨rest, hasks⟩ := List.head?_eq_some_iff.mp hfirst
    have hsorted : Sorted .sell b.asks_ := h.sorted .sell
    rw [hasks] at hsorted hlv
    rcases hsorted.front hlv with rfl | hless
    · exact UInt64.le_refl _
    · exact UInt64.le_of_lt (cmp_iff.mp hless)

end Consequences

/-- **After any calls, the vectors are strictly sorted and hold no empty level;
so the searches agree, and each side's first level has its best price.** -/
theorem exec_searchesAgree (instrumentId : UInt32) (calls : List BookCall) (s : Recorded)
    (hexec : exec instrumentId calls = some s) :
    s.1.bids_.Pairwise (fun x y => y.price_ < x.price_) ∧
    s.1.asks_.Pairwise (fun x y => x.price_ < y.price_) ∧
    (∀ side, ∀ lv ∈ s.1.levels side, lv.head_ ≠ none) ∧
    (∀ side price, SearchesAgree s.1 side price) ∧ FrontIsExtreme s.1 := by
  have htidy := exec_tidy hexec
  refine ⟨?_, ?_, htidy.headed, htidy.searchesAgree, htidy.frontIsExtreme⟩
  · exact (htidy.sorted .buy).imp cmp_iff.mp
  · exact (htidy.sorted .sell).imp cmp_iff.mp

/-- Two bids, of which the better one is cancelled, and an offer. -/
theorem exec_searchesAgree_cancelledBid : ∃ s,
    exec 1 [.add (some (Order.make 1 1 .buy 100 5)), .add (some (Order.make 2 1 .buy 101 7)),
      .add (some (Order.make 3 1 .sell 103 9)), .cancel 2] = some s ∧ s.1.bestBid = some 100 ∧
    (∀ price, SearchesAgree s.1 .buy price) ∧ FrontIsExtreme s.1 := by
  have hbest : (exec 1 [.add (some (Order.make 1 1 .buy 100 5)),
      .add (some (Order.make 2 1 .buy 101 7)), .add (some (Order.make 3 1 .sell 103 9)),
      .cancel 2]).map (fun s => s.1.bestBid) = some (some 100) := by decide
  obtain ⟨s, hexec, hbid⟩ := Option.map_eq_some_iff.mp hbest
  have hagree := exec_searchesAgree 1 _ s hexec
  exact ⟨s, hexec, hbid, hagree.2.2.2.1 .buy, hagree.2.2.2.2⟩

end UltraHft.MarketData.OrderBook
