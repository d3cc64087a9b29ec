import UltraHft.MarketData.Proofs.OrderBook.Levels
import UltraHft.MarketData.Proofs.PriceLevel

/-!
# Levels that link the stored orders

`Laddered b ptrs`: the levels of `b` link exactly the orders in the slots
`ptrs`, each level those of its side and price in the order of `ptrs`.  Linking
a new order and unlinking a stored one keep this, whatever the index does.
-/

namespace UltraHft.MarketData.OrderBook

open UltraHft.Lib

def restsAt (side : Side) (price : UInt64) (o : Order) : Bool :=
  decide (o.side = side ∧ o.price = price)

def queue (b : OrderBook) (ptrs : List Nat) (side : Side) (price : UInt64) : List Nat :=
  ptrs.filter fun p => restsAt side price (b.heap p)

structure Laddered (b : OrderBook) (ptrs : List Nat) : Prop where
  sorted : ∀ side, Sorted side (b.levels side)
  linked : ∀ side, ∀ lv ∈ b.levels side, lv.Links b.heap (b.queue ptrs side lv.price_)
  headed : ∀ side, ∀ lv ∈ b.levels side, b.queue ptrs side lv.price_ ≠ []
  covered : ∀ p ∈ ptrs, ∃ lv ∈ b.levels (b.heap p).side, lv.price_ = (b.heap p).price

section Queue

variable {b b' : OrderBook} {ptrs l₁ l₂ : List Nat} {side : Side} {price : UInt64}
  {o o' : Order} {p : Nat}

theorem restsAt_iff : restsAt side price o = true ↔ o.side = side ∧ o.price = price := by
  simp [restsAt]

theorem restsAt_self (o : Order) : restsAt o.side o.price o = true := by simp [restsAt]

theorem restsAt_unlinked : restsAt side price o.unlinked = restsAt side price o := rfl

theorem restsAt_congr (h : o'.unlinked = o.unlinked) :
    restsAt side price o' = restsAt side price o := by
  rw [← restsAt_unlinked, h, restsAt_unlinked]

theorem mem_queue : p ∈ b.queue ptrs side price ↔
    p ∈ ptrs ∧ restsAt side price (b.heap p) = true :=
  List.mem_filter

theorem queue_nodup (h : ptrs.Nodup) : (b.queue ptrs side price).Nodup := h.filter _

theorem queue_append : b.queue (l₁ ++ l₂) side price =
    b.queue l₁ side price ++ b.queue l₂ side price :=
  List.filter_append ..

theorem queue_cons_of_rests (h : restsAt side price (b.heap p) = true) :
    b.queue (p :: ptrs) side price = p :: b.queue ptrs side price :=
  List.filter_cons_of_pos h

theorem queue_cons_of_not_rests (h : ¬ restsAt side price (b.heap p)) :
    b.queue (p :: ptrs) side price = b.queue ptrs side price :=
  List.filter_cons_of_neg h

theorem queue_congr (h : ∀ p ∈ ptrs, (b'.heap p).unlinked = (b.heap p).unlinked) :
    b'.queue ptrs side price = b.queue ptrs side price := by
  apply List.filter_congr
  intro p hp
  exact restsAt_congr (h p hp)

theorem rests_unique {side' : Side} {price' : UInt64} (h : restsAt side price o = true)
    (h' : restsAt side' price' o = true) : side' = side ∧ price' = price := by
  rw [restsAt_iff] at h h'
  exact ⟨h'.1.symm.trans h.1, h'.2.symm.trans h.2⟩

end Queue

namespace Laddered

variable {b b' : OrderBook} {ptrs ptrs' l₁ l₂ : List Nat} {j p : Nat}

theorem new (instrumentId : UInt32) : Laddered (OrderBook.new instrumentId) [] := by
  have hlevels : ∀ side, (OrderBook.new instrumentId).levels side = [] := by
    intro side
    cases side <;> rfl
  refine ⟨?_, ?_, ?_, ?_⟩
  · intro side
    rw [hlevels]
    exact List.Pairwise.nil
  · intro side lv hlv
    rw [hlevels] at hlv
    cases hlv
  · intro side lv hlv
    rw [hlevels] at hlv
    cases hlv
  · intro p hp
    cases hp

theorem congr (h : Laddered b ptrs) (hlevels : ∀ side, b'.levels side = b.levels side)
    (hlinks : ∀ p ∈ ptrs, (b'.heap p).next = (b.heap p).next ∧
      (b'.heap p).prev = (b.heap p).prev)
    (hrest : ∀ p ∈ ptrs, (b'.heap p).side = (b.heap p).side ∧
      (b'.heap p).price = (b.heap p).price) : Laddered b' ptrs := by
  have hqueue : ∀ side price, b'.queue ptrs side price = b.queue ptrs side price := by
    intro side price
    apply List.filter_congr
    intro p hp
    rw [restsAt, restsAt, (hrest p hp).1, (hrest p hp).2]
  refine ⟨?_, ?_, ?_, ?_⟩
  · intro side
    rw [hlevels]
    exact h.sorted side
  · intro side lv hlv
    rw [hlevels] at hlv
    rw [hqueue]
    apply (h.linked side lv hlv).congr
    intro p hp
    exact hlinks p (mem_queue.mp hp).1
  · intro side lv hlv
    rw [hlevels] at hlv
    rw [hqueue]
    exact h.headed side lv hlv
  · intro p hp
    rw [hlevels, (hrest p hp).1, (hrest p hp).2]
    exact h.covered p hp

theorem queue_eq_nil (h : Laddered b ptrs) {side : Side} {price : UInt64}
    (hout : ∀ lv ∈ b.levels side, lv.price_ ≠ price) : b.queue ptrs side price = [] := by
  apply List.eq_nil_iff_forall_not_mem.mpr
  intro p hp
  obtain ⟨hmem, hrest⟩ := mem_queue.mp hp
  obtain ⟨hside, hprice⟩ := restsAt_iff.mp hrest
  obtain ⟨lv, hlv, hlvp⟩ := h.covered p hmem
  rw [hside] at hlv
  exact hout lv hlv (hlvp.trans hprice)

end Laddered

/-! ## A change at one side and price -/

/-- `mid` is the level of that side and price before, if there was one, and
`mid'` the level after. -/
structure LevelChange (b b' : OrderBook) (ptrs ptrs' : List Nat) (side : Side) (price : UInt64)
    (pre mid mid' post : List PriceLevel) : Prop where
  before : b.levels side = pre ++ mid ++ post
  after : b'.levels side = pre ++ mid' ++ post
  otherSide : ∀ s, s ≠ side → b'.levels s = b.levels s
  here : ∀ lv ∈ mid, lv.price_ = price
  elsewhere : ∀ lv ∈ pre ++ post, lv.price_ ≠ price
  sorted : Sorted side (pre ++ mid' ++ post)
  orders : Heap.SameOrders b.heap b'.heap
  queues : ∀ s q, ¬ (s = side ∧ q = price) → b.queue ptrs' s q = b.queue ptrs s q
  frame : ∀ p, ¬ restsAt side price (b.heap p) → b'.heap p = b.heap p
  linked : ∀ lv ∈ mid', lv.price_ = price ∧ lv.Links b'.heap (b'.queue ptrs' side price)
  headed : b'.queue ptrs' side price ≠ [] ↔ mid' ≠ []

namespace LevelChange

variable {b b' : OrderBook} {ptrs ptrs' : List Nat} {side s : Side} {price q : UInt64}
  {pre mid mid' post : List PriceLevel} {lv : PriceLevel} {p : Nat}

theorem queue_eq (hc : LevelChange b b' ptrs ptrs' side price pre mid mid' post) :
    b'.queue ptrs' s q = b.queue ptrs' s q :=
  queue_congr fun p _ => hc.orders p

theorem mem_of_mem (hc : LevelChange b b' ptrs ptrs' side price pre mid mid' post)
    (hlv : lv ∈ b.levels s) (hne : ¬ (s = side ∧ lv.price_ = price)) : lv ∈ b'.levels s := by
  by_cases hs : s = side
  · subst hs
    have hmid : lv ∉ mid := fun hm => hne ⟨rfl, hc.here lv hm⟩
    rw [hc.before] at hlv
    rw [hc.after]
    simp [hmid] at hlv ⊢
    tauto
  · rwa [hc.otherSide s hs]

theorem mem_cases (hc : LevelChange b b' ptrs ptrs' side price pre mid mid' post)
    (hlv : lv ∈ b'.levels s) :
    (s = side ∧ lv ∈ mid') ∨ (lv ∈ b.levels s ∧ ¬ (s = side ∧ lv.price_ = price)) := by
  by_cases hs : s = side
  · subst hs
    rw [hc.after] at hlv
    by_cases hm : lv ∈ mid'
    · exact .inl ⟨rfl, hm⟩
    · have hin : lv ∈ pre ++ post := by simpa [hm] using hlv
      refine .inr ⟨?_, fun heq => hc.elsewhere lv hin heq.2⟩
      rw [hc.before]
      simp at hin ⊢
      tauto
  · rw [hc.otherSide s hs] at hlv
    exact .inr ⟨hlv, fun heq => hs heq.1⟩

theorem links_of_mem (hc : LevelChange b b' ptrs ptrs' side price pre mid mid' post)
    (h : Laddered b ptrs) (hlv : lv ∈ b.levels s) (hne : ¬ (s = side ∧ lv.price_ = price)) :
    lv.Links b'.heap (b'.queue ptrs' s lv.price_) ∧ b'.queue ptrs' s lv.price_ ≠ [] := by
  rw [hc.queue_eq, hc.queues s lv.price_ hne]
  refine ⟨(h.linked s lv hlv).congr ?_, h.headed s lv hlv⟩
  intro p hp
  rw [hc.frame p fun hrest => hne (rests_unique hrest (mem_queue.mp hp).2)]
  exact ⟨rfl, rfl⟩

theorem links (hc : LevelChange b b' ptrs ptrs' side price pre mid mid' post)
    (h : Laddered b ptrs) (hlv : lv ∈ b'.levels s) :
    lv.Links b'.heap (b'.queue ptrs' s lv.price_) ∧ b'.queue ptrs' s lv.price_ ≠ [] := by
  rcases hc.mem_cases hlv with ⟨rfl, hm⟩ | ⟨hlv', hne⟩
  · rw [(hc.linked lv hm).1]
    exact ⟨(hc.linked lv hm).2, hc.headed.mpr (List.ne_nil_of_mem hm)⟩
  · exact hc.links_of_mem h hlv' hne

theorem covered (hc : LevelChange b b' ptrs ptrs' side price pre mid mid' post)
    (h : Laddered b ptrs) (hp : p ∈ ptrs') :
    ∃ lv ∈ b'.levels (b'.heap p).side, lv.price_ = (b'.heap p).price := by
  have hside : (b'.heap p).side = (b.heap p).side := (Order.mk.inj (hc.orders p)).2.2.1
  have hprice : (b'.heap p).price = (b.heap p).price := (Order.mk.inj (hc.orders p)).2.2.2.1
  have hpq : p ∈ b'.queue ptrs' (b'.heap p).side (b'.heap p).price :=
    mem_queue.mpr ⟨hp, restsAt_self _⟩
  by_cases hhere : (b'.heap p).side = side ∧ (b'.heap p).price = price
  · rw [hhere.1, hhere.2] at hpq
    obtain ⟨lv, hlv⟩ := List.exists_mem_of_ne_nil _ (hc.headed.mp (List.ne_nil_of_mem hpq))
    rw [hhere.1, hhere.2, hc.after]
    exact ⟨lv, by simp [hlv], (hc.linked lv hlv).1⟩
  · rw [hc.queue_eq, hc.queues _ _ hhere] at hpq
    obtain ⟨lv, hlv, hlvp⟩ := h.covered p (mem_queue.mp hpq).1
    rw [← hside] at hlv
    rw [← hprice] at hlvp
    refine ⟨lv, hc.mem_of_mem hlv ?_, hlvp⟩
    rwa [hlvp]

theorem laddered (hc : LevelChange b b' ptrs ptrs' side price pre mid mid' post)
    (h : Laddered b ptrs) : Laddered b' ptrs' where
  sorted := by
    intro s
    by_cases hs : s = side
    · rw [hs, hc.after]
      exact hc.sorted
    · rw [hc.otherSide s hs]
      exact h.sorted s
  linked _ _ hlv := (hc.links h hlv).1
  headed _ _ hlv := (hc.links h hlv).2
  covered _ hp := hc.covered h hp

end LevelChange

/-! ## Linking and unlinking one order -/

section LinkUnlink

variable {b : OrderBook} {pre post : List PriceLevel} {lv : PriceLevel} {side : Side} {j p : Nat}

theorem linkAt_eq : b.linkAt side (pre ++ lv :: post) pre.length j =
    { b with orders_ := b.orders_.withHeap (lv.addOrder b.heap j).2 }.setLevels side
      (pre ++ [(lv.addOrder b.heap j).1] ++ post) := by
  have hget : (pre ++ lv :: post)[pre.length]? = some lv := by simp
  rw [linkAt, hget]
  simp

theorem linkAt_heap : (b.linkAt side (pre ++ lv :: post) pre.length j).heap =
    (lv.addOrder b.heap j).2 := by
  rw [linkAt_eq, heap_setLevels]
  rfl

def kept (lv : PriceLevel) : List PriceLevel := if lv.isEmpty then [] else [lv]

theorem unlink_eq (hlev : b.levels (b.heap p).side = pre ++ lv :: post)
    (hidx : (pre ++ lv :: post).findIdx (fun x => x.price_ == (b.heap p).price) = pre.length) :
    b.unlink p = { b with orders_ := b.orders_.withHeap (lv.removeOrder b.heap p).2 }.setLevels
      (b.heap p).side (pre ++ kept (lv.removeOrder b.heap p).1 ++ post) := by
  have hget : (pre ++ lv :: post)[pre.length]? = some lv := by simp
  have herase : (pre ++ lv :: post).eraseIdx pre.length = pre ++ post := by
    rw [List.eraseIdx_append_of_length_le (Nat.le_refl _)]
    simp
  unfold OrderBook.unlink
  dsimp only
  rw [hlev, hidx, hget]
  dsimp only
  rw [kept]
  split_ifs with hempty
  · rw [herase, List.append_nil]
  · simp

end LinkUnlink

namespace Laddered

variable {b b' : OrderBook} {ptrs ptrs' l₁ l₂ : List Nat} {j p : Nat}

/-- Linking an order that is stored in `j` but not linked yet. -/
theorem link (h : Laddered b ptrs) (hnd : ptrs.Nodup) (hj : j ∉ ptrs)
    {levels : List PriceLevel} {it : Nat}
    (hfind : findOrInsert (b.levels (b.heap j).side) (b.heap j).price
      (cmp (b.heap j).side) = (levels, it)) :
    ∃ h', b.linkAt (b.heap j).side levels it j =
        { b with orders_ := b.orders_.withHeap h' }.setLevels (b.heap j).side
          ((b.linkAt (b.heap j).side levels it j).levels (b.heap j).side) ∧
      Heap.SameOrders b.heap h' ∧
      Laddered (b.linkAt (b.heap j).side levels it j) (ptrs ++ [j]) := by
  obtain ⟨pre, lv, post, hspec, hprice, hsorted, hcase⟩ :=
    findOrInsert_spec (h.sorted (b.heap j).side) (b.heap j).price
  rw [hspec] at hfind
  obtain ⟨rfl, rfl⟩ := Prod.mk.inj hfind
  generalize hsd : (b.heap j).side = side at *
  generalize hpr : (b.heap j).price = price at *
  have hrest : restsAt side price (b.heap j) = true := restsAt_iff.mpr ⟨hsd, hpr⟩
  have hout : ∀ x ∈ pre ++ post, x.price_ ≠ price := by
    intro x hx
    rw [← hprice]
    exact hsorted.price_ne hx
  have hmid : ∃ mid, b.levels side = pre ++ mid ++ post ∧ ∀ x ∈ mid, x.price_ = price := by
    rcases hcase with hin | ⟨hin, -⟩
    · exact ⟨[lv], by simp [hin], by simpa using hprice⟩
    · exact ⟨[], by simp [hin], by simp⟩
  obtain ⟨mid, hlev, hmid⟩ := hmid
  have hlinks : lv.Links b.heap (b.queue ptrs side price) := by
    rcases hcase with hin | ⟨hin, rfl⟩
    · rw [← hprice]
      exact h.linked side lv (by simp [hin])
    · -- no stored order has the price of a new level
      rw [h.queue_eq_nil (by rw [hin]; exact hout)]
      exact PriceLevel.make_links ..
  have hjq : j ∉ b.queue ptrs side price := fun hmem => hj (mem_queue.mp hmem).1
  have hq : (b.linkAt side (pre ++ lv :: post) pre.length j).queue (ptrs ++ [j]) side price =
      b.queue ptrs side price ++ [j] := by
    rw [queue_congr (b := b) (fun p _ => by
      rw [linkAt_heap]; exact PriceLevel.addOrder_sameOrders p),
      queue_append, queue_cons_of_rests hrest]
    rfl
  have hchange : LevelChange b (b.linkAt side (pre ++ lv :: post) pre.length j) ptrs (ptrs ++ [j])
      side price pre mid [(lv.addOrder b.heap j).1] post := by
    constructor
    case before => exact hlev
    case after => rw [linkAt_eq, levels_setLevels]
    case otherSide =>
      intro s hs
      rw [linkAt_eq, levels_setLevels_of_ne _ _ _ hs, levels_orders]
    case here => exact hmid
    case elsewhere => exact hout
    case sorted =>
      rw [List.append_assoc]
      exact hsorted.replace PriceLevel.addOrder_price
    case orders =>
      rw [linkAt_heap]
      exact PriceLevel.addOrder_sameOrders
    case queues =>
      intro s q hne
      rw [queue_append, queue_cons_of_not_rests fun hr => hne (rests_unique hrest hr)]
      exact List.append_nil _
    case frame =>
      intro p hp
      rw [linkAt_heap]
      apply PriceLevel.addOrder_frame hlinks
      · exact fun hmem => hp (mem_queue.mp hmem).2
      · intro heq
        exact hp (heq ▸ hrest)
    case linked =>
      intro x hx
      rw [List.mem_singleton.mp hx, linkAt_heap, hq]
      exact ⟨PriceLevel.addOrder_price.trans hprice, hlinks.addOrder (queue_nodup hnd) hjq⟩
    case headed => simp [hq]
  refine ⟨(lv.addOrder b.heap j).2, ?_, PriceLevel.addOrder_sameOrders, hchange.laddered h⟩
  rw [linkAt_eq, levels_setLevels]

/-- Unlinking an order that stays in its slot for now. -/
theorem unlink (h : Laddered b (l₁ ++ p :: l₂)) (hnd : (l₁ ++ p :: l₂).Nodup) :
    ∃ h', (b.unlink p).orders_ = b.orders_.withHeap h' ∧
      Heap.SameOrders b.heap h' ∧ Laddered (b.unlink p) (l₁ ++ l₂) := by
  obtain ⟨lv, hlv, hprice⟩ := h.covered p (by simp)
  have hrest : restsAt (b.heap p).side (b.heap p).price (b.heap p) = true := restsAt_self _
  have hsplit := h.sorted (b.heap p).side
  have hlinks := h.linked (b.heap p).side lv hlv
  obtain ⟨pre, post, hlev⟩ := List.append_of_mem hlv
  rw [hlev] at hsplit
  have heq := unlink_eq hlev (findIdx_eq hsplit hprice)
  have hheap : (b.unlink p).heap = (lv.removeOrder b.heap p).2 := by
    rw [heq, heap_setLevels]
    rfl
  rw [hprice, queue_append, queue_cons_of_rests hrest] at hlinks
  have hndq : (b.queue l₁ (b.heap p).side (b.heap p).price ++
      p :: b.queue l₂ (b.heap p).side (b.heap p).price).Nodup := by
    rw [← queue_cons_of_rests hrest, ← queue_append]
    exact queue_nodup hnd
  have hlinks' := hlinks.removeOrder hndq
  have hempty := PriceLevel.isEmpty_iff hlinks'
  have hq : (b.unlink p).queue (l₁ ++ l₂) (b.heap p).side (b.heap p).price =
      b.queue l₁ (b.heap p).side (b.heap p).price ++
        b.queue l₂ (b.heap p).side (b.heap p).price := by
    rw [queue_congr (b := b)
      (fun p _ => by rw [hheap]; exact PriceLevel.removeOrder_sameOrders p), queue_append]
  have hchange : LevelChange b (b.unlink p) (l₁ ++ p :: l₂) (l₁ ++ l₂) (b.heap p).side
      (b.heap p).price pre [lv] (kept (lv.removeOrder b.heap p).1) post := by
    constructor
    case before => rw [hlev, List.append_assoc, List.singleton_append]
    case after => rw [heq, levels_setLevels]
    case otherSide =>
      intro s hs
      rw [heq, levels_setLevels_of_ne _ _ _ hs, levels_orders]
    case here => simpa using hprice
    case elsewhere =>
      intro x hx
      rw [← hprice]
      exact hsplit.price_ne hx
    case sorted =>
      rw [kept]
      split_ifs
      · simpa using hsplit.remove
      · rw [List.append_assoc]
        exact hsplit.replace PriceLevel.removeOrder_price
    case orders =>
      rw [hheap]
      exact PriceLevel.removeOrder_sameOrders
    case queues =>
      intro s q hne
      rw [queue_append, queue_append,
        queue_cons_of_not_rests fun hr => hne (rests_unique hrest hr)]
    case frame =>
      intro i hi
      rw [hheap]
      apply PriceLevel.removeOrder_frame hlinks hndq
      intro hmem
      rw [← queue_append] at hmem
      exact hi (mem_queue.mp hmem).2
    case linked =>
      intro x hx
      obtain rfl : x = (lv.removeOrder b.heap p).1 := by
        rw [kept] at hx
        split_ifs at hx
        · cases hx
        · exact List.mem_singleton.mp hx
      rw [hheap, hq]
      exact ⟨PriceLevel.removeOrder_price.trans hprice, hlinks'⟩
    case headed =>
      rw [hq, ← not_iff_not, not_not, not_not, ← hempty, kept]
      split_ifs with he <;> simp [he]
  refine ⟨(lv.removeOrder b.heap p).2, ?_, PriceLevel.removeOrder_sameOrders,
    hchange.laddered h⟩
  rw [heq, orders_setLevels]

end Laddered

end UltraHft.MarketData.OrderBook
