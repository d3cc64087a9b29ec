import UltraHft.MarketData.Proofs.FlatOrderMap.Arrivals
import UltraHft.MarketData.Proofs.OrderBook.Laddered
import UltraHft.MarketData.Proofs.OrderBook.Ledger

/-!
# Index and levels in step

`Coherent b ptrs`: the slots `ptrs` are the occupied ones in order of arrival,
and the levels link them.  Every call that relocates no order keeps the book
coherent and its stored orders equal to the ledger.  A call that relocates one
leaves a pointer to an unoccupied slot in the levels.
-/

namespace UltraHft.MarketData.OrderBook

open UltraHft.Lib

structure Coherent (b : OrderBook) (ptrs : List Nat) : Prop where
  arrivals : b.orders_.Arrivals ptrs
  laddered : Laddered b ptrs

/-- The stored orders, oldest first. -/
def entries (b : OrderBook) (ptrs : List Nat) : Ledger :=
  ptrs.map fun p => (b.heap p).unlinked

def Stored (b : OrderBook) (p : Nat) : Prop :=
  p < b.orders_.capacity_ ∧ (b.orders_.slots p).occupied = true

/-- Each level is linked from head to tail through exactly the stored orders of
its side and price, in the order of the ledger. -/
def InOrder (b : OrderBook) (ledger : Ledger) : Prop :=
  ∀ side, ∀ lv ∈ b.levels side, ∃ walk : List Nat,
    lv.Links b.heap walk ∧ walk.Nodup ∧
    (∀ p, p ∈ walk ↔ b.Stored p ∧ restsAt side lv.price_ (b.heap p)) ∧
    walk.map (fun p => (b.heap p).unlinked) = ledger.filter (restsAt side lv.price_)

/-- The slot of the order that a call takes out of the book. -/
def removed (b : OrderBook) : BookCall → Option Nat
  | .add _ => none
  | .cancel orderId => (b.orders_.find orderId).join
  | .execute orderId qty => (b.orders_.find orderId).join.filter fun p =>
      decide ((b.heap p).remainingQty ≠ 0 ∧ (b.heap p).remainingQty ≤ qty)

/-- The call takes out an order whose erasure moves another one. -/
def Relocating (b : OrderBook) (call : BookCall) : Prop :=
  ∃ p, b.removed call = some p ∧
    OpenAddressing.Relocates b.orders_.capacity_ b.orders_.home b.orders_.cells p

/-- The book after `executeOrder` has written the quantity left and before it
cancels a filled order. -/
def reduced (b : OrderBook) (j : Nat) (left : UInt32) : OrderBook :=
  { b with orders_ := b.orders_.withHeap (b.heap.setRemainingQty j left) }

theorem heap_reduced (b : OrderBook) (j : Nat) (left : UInt32) (i : Nat) :
    (b.reduced j left).heap i =
      if i = j then { b.heap i with remainingQty := left } else b.heap i := rfl

section Heap

variable {b : OrderBook} {h : Heap} {key : UInt64}

@[simp] theorem probe_withHeap (m : FlatOrderMap) :
    (m.withHeap h).probe key = m.probe key := rfl

theorem cells_withHeap (m : FlatOrderMap) (p : Nat) :
    (m.withHeap h).cells p = (m.cells p).map fun s => { s with order := h p } := by
  change (if (m.slots p).occupied then _ else _) =
    Option.map _ (if (m.slots p).occupied then _ else _)
  split_ifs <;> rfl

theorem relocates_withHeap (m : FlatOrderMap) (p : Nat) :
    OpenAddressing.Relocates (m.withHeap h).capacity_ (m.withHeap h).home
        (m.withHeap h).cells p ↔
      OpenAddressing.Relocates m.capacity_ m.home m.cells p := by
  have hnone : ∀ q, (m.withHeap h).cells q ≠ none ↔ m.cells q ≠ none := by
    intro q
    rw [cells_withHeap]
    simp
  have hrun : ∀ q, OpenAddressing.InRun (m.withHeap h).capacity_ (m.withHeap h).cells p q ↔
      OpenAddressing.InRun m.capacity_ m.cells p q := by
    intro q
    unfold OpenAddressing.InRun
    simp only [hnone]
    exact Iff.rfl
  unfold OpenAddressing.Relocates
  simp only [hrun, cells_withHeap, Option.map_eq_some_iff]
  constructor
  · rintro ⟨q, s', hq, ⟨s, hs, rfl⟩, hlt⟩
    exact ⟨q, s, hq, hs, hlt⟩
  · rintro ⟨q, s, hq, hs, hlt⟩
    exact ⟨q, _, hq, ⟨s, hs, rfl⟩, hlt⟩

end Heap

section Entries

variable {b b' : OrderBook} {ptrs l₁ l₂ : List Nat} {p : Nat}

theorem entries_append : b.entries (l₁ ++ l₂) = b.entries l₁ ++ b.entries l₂ :=
  List.map_append ..

theorem entries_congr (h : ∀ p ∈ ptrs, (b'.heap p).unlinked = (b.heap p).unlinked) :
    b'.entries ptrs = b.entries ptrs :=
  List.map_congr_left h

theorem entries_filter (side : Side) (price : UInt64) :
    (b.entries ptrs).filter (restsAt side price) =
      (b.queue ptrs side price).map fun p => (b.heap p).unlinked := by
  rw [entries, List.filter_map]
  rfl

end Entries

namespace Coherent

variable {b b' : OrderBook} {ptrs l₁ l₂ : List Nat} {id : UInt64} {j p : Nat}

theorem new (instrumentId : UInt32) : Coherent (OrderBook.new instrumentId) [] := by
  refine ⟨⟨FlatOrderMap.new_sized (by decide), ?_, List.nodup_nil, ?_, List.Pairwise.nil, rfl⟩,
    Laddered.new instrumentId⟩
  · intro p
    simp [OrderBook.new, FlatOrderMap.new]
  · intro p hp
    cases hp

theorem inOrder (h : Coherent b ptrs) : InOrder b (b.entries ptrs) := by
  intro side lv hlv
  refine ⟨b.queue ptrs side lv.price_, h.laddered.linked side lv hlv,
    queue_nodup h.arrivals.nodup, ?_, ?_⟩
  · intro p
    rw [mem_queue, h.arrivals.mem]
    rfl
  · rw [entries_filter]

theorem congr_heap (h : Coherent b ptrs) {hp : Heap}
    (hid : ∀ i, (hp i).orderId = (b.heap i).orderId)
    (hlinks : ∀ i, (hp i).next = (b.heap i).next ∧ (hp i).prev = (b.heap i).prev)
    (hrest : ∀ i, (hp i).side = (b.heap i).side ∧ (hp i).price = (b.heap i).price) :
    Coherent { b with orders_ := b.orders_.withHeap hp } ptrs := by
  refine ⟨h.arrivals.withHeap hid, h.laddered.congr ?_ ?_ ?_⟩
  · intro side
    exact levels_orders b side _
  · exact fun i _ => hlinks i
  · exact fun i _ => hrest i

/-- The order that a probe meets is the latest of its id. -/
theorem latest (h : Coherent b ptrs) (hj : b.orders_.probe id = some j)
    (hocc : (b.orders_.slots j).occupied = true) :
    ∃ l₁ l₂, ptrs = l₁ ++ j :: l₂ ∧ (b.heap j).unlinked.orderId = id ∧
      ∀ o ∈ b.entries l₂, o.orderId ≠ id := by
  obtain ⟨l₁, l₂, rfl, hkey, hlater⟩ := h.arrivals.latest hj hocc
  refine ⟨l₁, l₂, rfl, ?_, ?_⟩
  · exact (h.arrivals.keyed j (by simp)).symm.trans hkey
  · intro o ho
    obtain ⟨q, hq, rfl⟩ := List.mem_map.mp ho
    have hkeyq := h.arrivals.keyed q (by simp [hq])
    exact fun heq => hlater q hq (hkeyq.trans heq)

/-! ## Adding -/

theorem addOrder_duplicate (hj : b.orders_.probe id = some j)
    (hocc : (b.orders_.slots j).occupied = true) {o : Order} (ho : o.orderId = id) :
    b.addOrder (some o) = some (false, b) := by
  simp [addOrder, ho, FlatOrderMap.find_of_occupied hj hocc]

theorem addOrder_free {o : Order} (hj : b.orders_.probe o.orderId = some j)
    (hfree : (b.orders_.slots j).occupied = false) :
    b.addOrder (some o) = some (true, { b with orders_ := b.orders_.filled j o }.linkAt o.side
      (findOrInsert (b.levels o.side) o.price (cmp o.side)).1
      (findOrInsert (b.levels o.side) o.price (cmp o.side)).2 j) := by
  simp only [addOrder, FlatOrderMap.find_of_free hj hfree, FlatOrderMap.insert_of_free hj hfree,
    Option.bind_eq_bind, Option.bind_some, Option.isSome_none, Bool.false_eq_true, if_false]
  rfl

theorem addOrder_new (h : Coherent b ptrs) (hroom : ptrs.length < b.orders_.capacity_)
    {o : Order} (hj : b.orders_.probe o.orderId = some j)
    (hfree : (b.orders_.slots j).occupied = false) :
    ∃ b' hp, b.addOrder (some o) = some (true, b') ∧ Coherent b' (ptrs ++ [j]) ∧
      b'.entries (ptrs ++ [j]) = b.entries ptrs ++ [o.unlinked] ∧
      b'.orders_ = (b.orders_.filled j o).withHeap hp := by
  have hjout := h.arrivals.notMem_of_free hfree
  have harr := h.arrivals.insert hroom hj hfree rfl
  set b₁ : OrderBook := { b with orders_ := b.orders_.filled j o } with hb₁
  have hheap : ∀ i, i ≠ j → b₁.heap i = b.heap i :=
    fun i hi => FlatOrderMap.heap_filled_of_ne hi
  have hheapj : b₁.heap j = o := FlatOrderMap.heap_filled_self
  have hne : ∀ {p}, p ∈ ptrs → p ≠ j := fun hp heq => hjout (heq ▸ hp)
  have hlad : Laddered b₁ ptrs := by
    apply h.laddered.congr
    · intro side
      exact levels_orders b side _
    · intro p hp
      rw [hheap p (hne hp)]
      exact ⟨rfl, rfl⟩
    · intro p hp
      rw [hheap p (hne hp)]
      exact ⟨rfl, rfl⟩
  have hlevels : b₁.levels o.side = b.levels o.side := levels_orders b o.side _
  obtain ⟨⟨levels, it⟩, hfind⟩ : ∃ r, findOrInsert (b.levels o.side) o.price (cmp o.side) = r :=
    ⟨_, rfl⟩
  have hfind' : findOrInsert (b₁.levels (b₁.heap j).side) (b₁.heap j).price
      (cmp (b₁.heap j).side) = (levels, it) := by
    rw [hheapj, hlevels, hfind]
  obtain ⟨hp, heq, hsame, hlad'⟩ := hlad.link h.arrivals.nodup hjout hfind'
  rw [hheapj] at heq hlad'
  have horders : (b₁.linkAt o.side levels it j).orders_ = (b.orders_.filled j o).withHeap hp := by
    rw [heq, orders_setLevels]
  refine ⟨b₁.linkAt o.side levels it j, hp, ?_, ⟨?_, hlad'⟩, ?_, horders⟩
  · rw [addOrder_free hj hfree, hfind]
  · rw [horders]
    exact harr.withHeap fun i => (Order.mk.inj (hsame i)).1
  · have hheap' : (b₁.linkAt o.side levels it j).heap = hp := by
      rw [heap, horders]
      rfl
    rw [entries_congr (b := b₁) fun p _ => by rw [hheap']; exact hsame p, entries_append,
      entries_congr (b := b) fun p hp => by rw [hheap p (hne hp)]]
    simp [entries, hheapj]

/-! ## Cancelling -/

theorem cancelOrder_absent (hj : b.orders_.probe id = some j)
    (hfree : (b.orders_.slots j).occupied = false) : b.cancelOrder id = some (false, b) := by
  simp [cancelOrder, FlatOrderMap.find_of_free hj hfree]

theorem cancelOrder_present (hj : b.orders_.probe id = some j)
    (hocc : (b.orders_.slots j).occupied = true) {ok : Bool} {m : FlatOrderMap}
    (her : (b.unlink j).orders_.erase id = some (ok, m)) :
    b.cancelOrder id = some (true, { b.unlink j with orders_ := m }) := by
  simp [cancelOrder, FlatOrderMap.find_of_occupied hj hocc, her]

theorem cancelOrder_still (h : Coherent b (l₁ ++ j :: l₂))
    (hroom : (l₁ ++ j :: l₂).length < b.orders_.capacity_) (hj : b.orders_.probe id = some j)
    (hno : ¬ OpenAddressing.Relocates b.orders_.capacity_ b.orders_.home b.orders_.cells j) :
    ∃ b' hp, b.cancelOrder id = some (true, b') ∧ Coherent b' (l₁ ++ l₂) ∧
      b'.entries (l₁ ++ l₂) = b.entries l₁ ++ b.entries l₂ ∧
      b'.orders_.capacity_ = b.orders_.capacity_ ∧ b'.orders_.mask_ = b.orders_.mask_ ∧
      b'.orders_.cells = (b.orders_.withHeap hp).vacated j := by
  obtain ⟨hp, horders, hsame, hlad⟩ := h.laddered.unlink h.arrivals.nodup
  have harr : (b.orders_.withHeap hp).Arrivals (l₁ ++ j :: l₂) :=
    h.arrivals.withHeap fun i => (Order.mk.inj (hsame i)).1
  rw [← relocates_withHeap (h := hp)] at hno
  obtain ⟨m, her, harr', hcap, hmask, hcells⟩ := harr.erase_still hroom
    ((probe_withHeap b.orders_).trans hj) hno
  rw [← horders] at her
  have hheap : ∀ q ∈ l₁ ++ l₂, m.heap q = hp q := by
    intro q hq
    have hqj := h.arrivals.ne_of_mem_rest hq
    have hcell : m.cells q = some (m.slots q) :=
      FlatOrderMap.cells_eq_some.mpr ⟨((harr'.mem q).mp hq).2, rfl⟩
    rw [hcells, FlatOrderMap.vacated, Function.update_of_ne hqj] at hcell
    exact (congrArg Slot.order (FlatOrderMap.cells_eq_some.mp hcell).2).symm
  have hunlink : (b.unlink j).heap = hp := by
    rw [heap, horders]
    rfl
  have hocc := h.arrivals.probe_erased.2
  refine ⟨{ b.unlink j with orders_ := m }, hp, cancelOrder_present hj hocc her,
    ⟨harr', hlad.congr ?_ ?_ ?_⟩, ?_, hcap, hmask, hcells⟩
  · intro side
    exact levels_orders _ side m
  · intro q hq
    change (m.heap q).next = _ ∧ (m.heap q).prev = _
    rw [hheap q hq, hunlink]
    exact ⟨rfl, rfl⟩
  · intro q hq
    change (m.heap q).side = _ ∧ (m.heap q).price = _
    rw [hheap q hq, hunlink]
    exact ⟨rfl, rfl⟩
  · rw [← entries_append]
    apply entries_congr
    intro q hq
    change (m.heap q).unlinked = _
    rw [hheap q hq]
    exact hsame q

/-- After a relocation some level points to an unoccupied slot. -/
theorem cancelOrder_moved (h : Coherent b (l₁ ++ j :: l₂))
    (hroom : (l₁ ++ j :: l₂).length < b.orders_.capacity_) (hj : b.orders_.probe id = some j)
    (hrel : OpenAddressing.Relocates b.orders_.capacity_ b.orders_.home b.orders_.cells j) :
    ∃ b', b.cancelOrder id = some (true, b') ∧ ∀ ledger, ¬ InOrder b' ledger := by
  obtain ⟨hp, horders, hsame, hlad⟩ := h.laddered.unlink h.arrivals.nodup
  have harr : (b.orders_.withHeap hp).Arrivals (l₁ ++ j :: l₂) :=
    h.arrivals.withHeap fun i => (Order.mk.inj (hsame i)).1
  rw [← relocates_withHeap (h := hp)] at hrel
  obtain ⟨m, her, hcap, ⟨q, hq, hempty⟩, hkept⟩ := harr.erase_moved hroom
    ((probe_withHeap b.orders_).trans hj) hrel
  rw [← horders] at her
  have hocc := h.arrivals.probe_erased.2
  refine ⟨{ b.unlink j with orders_ := m }, cancelOrder_present hj hocc her, ?_⟩
  intro ledger hin
  have hunlink : (b.unlink j).heap = hp := by
    rw [heap, horders]
    rfl
  -- the level of the order that was stored in `q`
  obtain ⟨lv, hlv, hprice⟩ := hlad.covered q hq
  have hlinked := hlad.linked _ lv hlv
  rw [← levels_orders (b.unlink j) _ m] at hlv
  obtain ⟨walk, hwalk, -, hstored, -⟩ := hin _ lv hlv
  have hqueue : q ∈ (b.unlink j).queue (l₁ ++ l₂) ((b.unlink j).heap q).side lv.price_ := by
    rw [hprice]
    exact mem_queue.mpr ⟨hq, restsAt_self _⟩
  have hnot : q ∉ walk := by
    intro hmem
    have hqocc : (m.slots q).occupied = true := ((hstored q).mp hmem).1.2
    rw [hempty] at hqocc
    cases hqocc
  rcases hlinked.exists_prev hqueue with hhead | ⟨r, hr, hnext⟩
  · exact hnot (hwalk.head_mem hhead)
  · -- the predecessor is stored somewhere, with its old link
    obtain ⟨hr, hrest⟩ := mem_queue.mp hr
    obtain ⟨r', hr'lt, hr'occ, hr'⟩ := hkept r hr
    have horder : m.heap r' = (b.unlink j).heap r := by
      rw [hunlink]
      exact congrArg Slot.order hr'
    have hmem : r' ∈ walk := by
      refine (hstored r').mpr ⟨⟨hr'lt.trans_eq hcap.symm, hr'occ⟩, ?_⟩
      change restsAt _ _ (m.heap r') = true
      rw [horder]
      exact hrest
    apply hnot
    apply hwalk.seg.next_mem hmem
    change (m.heap r').next = some q
    rw [horder]
    exact hnext

/-! ## Executing -/

theorem executeOrder_absent (hj : b.orders_.probe id = some j)
    (hfree : (b.orders_.slots j).occupied = false) (qty : UInt32) :
    b.executeOrder id qty = some (0, b) := by
  simp [executeOrder, FlatOrderMap.find_of_free hj hfree]

theorem executeOrder_spent (hj : b.orders_.probe id = some j)
    (hocc : (b.orders_.slots j).occupied = true) (hzero : (b.heap j).remainingQty = 0)
    (qty : UInt32) : b.executeOrder id qty = some (0, b) := by
  simp [executeOrder, FlatOrderMap.find_of_occupied hj hocc, hzero]

theorem executeOrder_found (hj : b.orders_.probe id = some j)
    (hocc : (b.orders_.slots j).occupied = true) (hpos : (b.heap j).remainingQty ≠ 0)
    {qty executed : UInt32}
    (hex : (if qty > (b.heap j).remainingQty then (b.heap j).remainingQty else qty) = executed) :
    b.executeOrder id qty =
      if (b.heap j).remainingQty - executed = 0 then
        ((b.reduced j ((b.heap j).remainingQty - executed)).cancelOrder id).map
          (Prod.map (fun _ => executed) (fun b' => b'))
      else some (executed, b.reduced j ((b.heap j).remainingQty - executed)) := by
  have hleft : (b.heap.setRemainingQty j ((b.heap j).remainingQty - executed) j).remainingQty =
      (b.heap j).remainingQty - executed := by
    simp [Heap.setRemainingQty]
  simp only [executeOrder, FlatOrderMap.find_of_occupied hj hocc, Option.bind_eq_bind,
    Option.bind_some, hpos, if_false, hex, hleft]
  split_ifs with hzero
  · cases hc : (b.reduced j ((b.heap j).remainingQty - executed)).cancelOrder id with
    | none =>
        rw [reduced] at hc
        rw [hc]
        rfl
    | some r =>
        rw [reduced] at hc
        rw [hc]
        rfl
  · rfl

theorem reduced_coherent (h : Coherent b ptrs) (j : Nat) (left : UInt32) :
    Coherent (b.reduced j left) ptrs := by
  apply h.congr_heap <;> intro i <;> unfold Heap.setRemainingQty <;> split_ifs <;> simp

theorem reduced_rest (h : Coherent b (l₁ ++ j :: l₂)) (left : UInt32) {q : Nat}
    (hq : q ∈ l₁ ++ l₂) : (b.reduced j left).heap q = b.heap q := by
  rw [heap_reduced, if_neg (h.arrivals.ne_of_mem_rest hq)]

theorem reduced_entries (h : Coherent b (l₁ ++ j :: l₂)) (left : UInt32) :
    (b.reduced j left).entries (l₁ ++ j :: l₂) =
      b.entries l₁ ++ { (b.heap j).unlinked with remainingQty := left } :: b.entries l₂ := by
  have hsame : ∀ q ∈ l₁ ++ l₂, (b.reduced j left).heap q = b.heap q :=
    fun q hq => h.reduced_rest left hq
  have h₁ : (b.reduced j left).entries l₁ = b.entries l₁ :=
    entries_congr fun q hq => by rw [hsame q (List.mem_append_left _ hq)]
  have h₂ : (b.reduced j left).entries l₂ = b.entries l₂ :=
    entries_congr fun q hq => by rw [hsame q (List.mem_append_right _ hq)]
  have hj : ((b.reduced j left).heap j).unlinked =
      { (b.heap j).unlinked with remainingQty := left } := by
    rw [heap_reduced, if_pos rfl]
    rfl
  rw [entries_append, h₁, ← hj, ← h₂]
  rfl

theorem toNat_clamp (qty remaining : UInt32) :
    (if qty > remaining then remaining else qty).toNat = min qty.toNat remaining.toNat := by
  split_ifs with hgt
  · have hlt : remaining.toNat < qty.toNat := UInt32.lt_iff_toNat_lt.mp hgt
    omega
  · have hle : qty.toNat ≤ remaining.toNat := UInt32.le_iff_toNat_le.mp (UInt32.not_lt.mp hgt)
    omega

theorem toNat_left (qty remaining : UInt32) :
    (remaining - (if qty > remaining then remaining else qty)).toNat =
      remaining.toNat - qty.toNat := by
  have hclamp := toNat_clamp qty remaining
  have hle : (if qty > remaining then remaining else qty) ≤ remaining := by
    rw [UInt32.le_iff_toNat_le]
    omega
  rw [UInt32.toNat_sub_of_le _ _ hle, hclamp]
  omega

theorem left_eq_zero_iff (remaining qty : UInt32) :
    remaining - (if qty > remaining then remaining else qty) = 0 ↔ remaining ≤ qty := by
  rw [← UInt32.toNat_inj, toNat_left, UInt32.toNat_zero, UInt32.le_iff_toNat_le]
  omega

end Coherent

end UltraHft.MarketData.OrderBook
