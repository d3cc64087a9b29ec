import UltraHft.MarketData.Proofs.OrderBook.Gains
import UltraHft.MarketData.Proofs.OrderBook.LevelRuns

/-!
# Consistent books

Every stored order is found by its id, some slot is empty, and each level links
the stored orders of its side and price, in whatever order.  A run of adds on a
new book leads to such a book as long as a slot stays empty.
-/

namespace UltraHft.MarketData

open UltraHft.Lib
open UltraHft.Lib.OpenAddressing (Chained KeysUnique)

namespace FlatOrderMap

variable {m : FlatOrderMap} {key : UInt64} {j : Nat}

/-- The probe for the key of an occupied slot ends at that slot. -/
def Findable (m : FlatOrderMap) : Prop :=
  ∀ p < m.capacity_, (m.slots p).occupied = true → m.find (m.slots p).key = some (some p)

theorem find_eq_some_iff {p : Nat} : m.find key = some (some p) ↔
    m.probe key = some p ∧ (m.slots p).occupied = true := by
  cases hj : m.probe key with
  | none => simp [find, hj]
  | some j =>
      cases hocc : (m.slots j).occupied with
      | false =>
          rw [find_of_free hj hocc]
          simp only [Option.some.injEq, reduceCtorEq, false_iff, not_and]
          rintro rfl
          simp [hocc]
      | true =>
          rw [find_of_occupied hj hocc]
          simp only [Option.some.injEq]
          constructor
          · rintro rfl
            exact ⟨rfl, hocc⟩
          · exact fun h => h.1

theorem find_eq_none_iff : m.find key = some none ↔
    ∃ j, m.probe key = some j ∧ (m.slots j).occupied = false := by
  cases hj : m.probe key with
  | none => simp [find, hj]
  | some j => cases hocc : (m.slots j).occupied <;> simp [find, hj, hocc]

/-- Keys are found exactly when each has one slot and no probe path is broken. -/
theorem findable_iff (hm : Sized m) : m.Findable ↔
    Chained m.capacity_ m.home m.cells ∧ KeysUnique m.capacity_ Slot.key m.cells := by
  constructor
  · intro h
    constructor
    · rintro p hp q hq ⟨s, hs, hlt⟩ hnone
      obtain ⟨hocc, rfl⟩ := cells_eq_some.mp hs
      have hfirst := (probe_eq_some_iff hm).mp (find_eq_some_iff.mp (h p hp hocc)).1
      apply hfirst.2.2 q hq hlt
      rw [OpenAddressing.stops_iff, hnone]
      simp
    · intro p hp q hq s t hs ht hkey
      obtain ⟨hocc, rfl⟩ := cells_eq_some.mp hs
      obtain ⟨hocc', rfl⟩ := cells_eq_some.mp ht
      have hfind := h p hp hocc
      rw [hkey, h q hq hocc'] at hfind
      exact (Option.some.inj (Option.some.inj hfind)).symm
  · intro ⟨hch, huniq⟩ p hp hocc
    have hfirst := OpenAddressing.isFirst_of_entry hch huniq hp (cells_eq_some.mpr ⟨hocc, rfl⟩)
    exact find_of_occupied ((probe_eq_some_iff hm).mpr hfirst) hocc

theorem Findable.congr {m' : FlatOrderMap} (h : m.Findable) (hshape : SameShape m m')
    (hsame : ∀ i, (m'.slots i).occupied = (m.slots i).occupied ∧
      (m'.slots i).key = (m.slots i).key) : m'.Findable := by
  have hslots : m'.slots = (m.withHeap m'.heap).slots := by
    ext1 i
    obtain ⟨hocc, hkey⟩ := hsame i
    change m'.slots i = ⟨(m.slots i).key, (m'.slots i).order, (m.slots i).occupied⟩
    rw [← hocc, ← hkey]
  have hfind : ∀ key, m'.find key = m.find key := by
    intro key
    have hm' : m' = { m.withHeap m'.heap with size_ := m'.size_ } :=
      calc m' = ⟨m'.slots, m'.capacity_, m'.mask_, m'.size_⟩ := rfl
        _ = ⟨(m.withHeap m'.heap).slots, m.capacity_, m.mask_, m'.size_⟩ := by
            rw [← hslots, hshape.capacity, hshape.mask]
    rw [hm']
    rfl
  intro p hp hocc
  rw [hshape.capacity] at hp
  rw [(hsame p).1] at hocc
  rw [hfind, (hsame p).2]
  exact h p hp hocc

theorem Findable.insert (h : m.Findable) (hm : Sized m) (hj : m.probe key = some j)
    (hfree : (m.slots j).occupied = false) (order : Order) :
    Findable { m.setSlot j { key, order, occupied := true } with
      size_ := sizeT (m.size_ + 1) } := by
  have hm' : Sized { m.setSlot j { key, order, occupied := true } with
      size_ := sizeT (m.size_ + 1) } := ⟨hm.pow2, hm.mask⟩
  obtain ⟨hch, huniq⟩ := (findable_iff hm).mp h
  rw [findable_iff hm', cells_insert]
  constructor
  · exact hch.insert ((probe_eq_some_iff hm).mp hj)
  · apply huniq.insert
    -- an entry of this key would be found, at an occupied slot
    intro p hp _ s hs hkey
    obtain ⟨hocc, rfl⟩ := cells_eq_some.mp hs
    have hkey' : (m.slots p).key = key := hkey
    have hprobe := (find_eq_some_iff.mp (h p hp hocc)).1
    rw [hkey', hj] at hprobe
    rw [Option.some.inj hprobe, hocc] at hfree
    cases hfree

end FlatOrderMap

namespace OrderBook

structure Consistent (b : OrderBook) : Prop where
  sized : FlatOrderMap.Sized b.orders_
  room : ∃ e < b.orders_.capacity_, (b.orders_.slots e).occupied = false
  size_lt : b.orders_.size_ < 2 ^ 64
  found : ∀ p, b.Stored p → b.orders_.find (b.heap p).orderId = some (some p)
  sorted : ∀ side, Sorted side (b.levels side)
  linked : ∀ side, ∀ lv ∈ b.levels side, ∃ walk, walk ≠ [] ∧ walk.Nodup ∧
    lv.Links b.heap walk ∧
    ∀ p, p ∈ walk ↔ b.Stored p ∧ restsAt side lv.price_ (b.heap p)
  covered : ∀ p, b.Stored p → ∃ lv ∈ b.levels (b.heap p).side, lv.price_ = (b.heap p).price

variable {b b' : OrderBook} {ptrs : List Nat} {id : UInt64} {p q : Nat}

namespace Consistent

theorem keyed (h : Consistent b) (hp : b.Stored p) :
    (b.orders_.slots p).key = (b.heap p).orderId :=
  FlatOrderMap.probe_key h.sized (FlatOrderMap.find_eq_some_iff.mp (h.found p hp)).1 hp.2

theorem findable (h : Consistent b) : b.orders_.Findable := by
  intro p hp hocc
  rw [h.keyed ⟨hp, hocc⟩]
  exact h.found p ⟨hp, hocc⟩

theorem unique (h : Consistent b) (hp : b.Stored p) (hq : b.Stored q)
    (hid : (b.heap p).orderId = (b.heap q).orderId) : p = q := by
  have hfound := h.found p hp
  rw [hid, h.found q hq] at hfound
  exact (Option.some.inj (Option.some.inj hfound)).symm

end Consistent

theorem Coherent.consistent (h : Coherent b ptrs) (hroom : ptrs.length < b.orders_.capacity_)
    (hfind : b.orders_.Findable) : Consistent b where
  sized := h.arrivals.sized
  room := h.arrivals.exists_free hroom
  size_lt := by
    have hcap := h.arrivals.sized.capacity_le
    rw [h.arrivals.size]
    omega
  found p hp := by
    have hkey := h.arrivals.keyed p ((h.arrivals.mem p).mpr hp)
    change b.orders_.find (b.orders_.slots p).order.orderId = _
    rw [← hkey]
    exact hfind p hp.1 hp.2
  sorted := h.laddered.sorted
  linked side lv hlv := by
    refine ⟨b.queue ptrs side lv.price_, h.laddered.headed side lv hlv,
      queue_nodup h.arrivals.nodup, h.laddered.linked side lv hlv, ?_⟩
    intro p
    rw [mem_queue, h.arrivals.mem]
    rfl
  covered p hp := h.laddered.covered p ((h.arrivals.mem p).mpr hp)

/-! ## Runs of adds -/

theorem findable_addOrder (hb : FlatOrderMap.Constructed b.orders_)
    (h : b.orders_.Findable) {order : Option Order} {added : Bool}
    (hadd : b.addOrder order = some (added, b')) : b'.orders_.Findable := by
  cases order with
  | none =>
      cases hadd
      exact h
  | some o =>
      cases hj : b.orders_.probe o.orderId with
      | none =>
          rw [addOrder_hangs hj] at hadd
          cases hadd
      | some j =>
          have hm := FlatOrderMap.sized_of_probe hb hj
          cases hocc : (b.orders_.slots j).occupied with
          | true =>
              rw [Coherent.addOrder_duplicate hj hocc rfl] at hadd
              obtain ⟨-, rfl⟩ := Prod.mk.inj (Option.some.inj hadd)
              exact h
          | false =>
              obtain ⟨b'', hadd', hgain⟩ := addOrder_gains hb hj hocc
              rw [hadd'] at hadd
              obtain ⟨-, rfl⟩ := Prod.mk.inj (Option.some.inj hadd)
              apply (h.insert hm hj hocc o).congr ⟨hgain.shape.capacity, hgain.shape.mask⟩
              intro i
              by_cases hi : i = j
              · subst hi
                simp [FlatOrderMap.setSlot, hgain.stored.2, hgain.key]
              · obtain ⟨hocc', hkey', -⟩ := hgain.others i hi
                rw [FlatOrderMap.Arrivals.slots_insert hi]
                exact ⟨hocc', hkey'⟩

/-- Any sequence of adds on a new book returns, and its book is consistent, if
some slot always stays empty. -/
theorem exec_adds_consistent (instrumentId : UInt32) (orders : List (Option Order))
    (hroom : KeepsRoom instrumentId (orders.map .add)) :
    ∃ s, exec instrumentId (orders.map .add) = some s ∧ Consistent s.1 := by
  have hrun : ∃ s, exec instrumentId (orders.map .add) = some s ∧
      Kept s ∧ s.1.orders_.Findable := by
    apply Runs.exec_total (fun _ s => Kept s ∧ s.1.orders_.Findable)
    · refine ⟨Kept.new instrumentId, ?_⟩
      intro p _ hocc
      cases hocc
    · intro pre call s hpre hs ⟨hkept, hfind⟩
      obtain ⟨s', hstep, hgood, -⟩ :=
        hkept.step (hroom.lt ((List.prefix_append pre [call]).trans hpre) hs) call
      have hmem : call ∈ orders.map .add := hpre.subset (by simp)
      obtain ⟨order, -, rfl⟩ := List.mem_map.mp hmem
      refine ⟨s', hstep, hgood (not_relocating rfl), ?_⟩
      obtain ⟨⟨answer, b'⟩, hrun, rfl⟩ := Option.map_eq_some_iff.mp hstep
      obtain ⟨⟨added, b'⟩, hadd, heq⟩ := Option.map_eq_some_iff.mp hrun
      cases heq
      obtain ⟨ptrs, hcoh, -⟩ := hkept
      exact findable_addOrder (.inr hcoh.arrivals.sized) hfind hadd
  obtain ⟨s, hs, ⟨ptrs, hcoh, -⟩, hfind⟩ := hrun
  have hlen := hroom.lt List.prefix_rfl hs
  rw [orderCount, hcoh.arrivals.size] at hlen
  exact ⟨s, hs, hcoh.consistent hlen hfind⟩

end OrderBook

end UltraHft.MarketData
