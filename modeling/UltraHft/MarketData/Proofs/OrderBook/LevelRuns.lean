import UltraHft.MarketData.Proofs.OrderBook.Steps

/-!
# Price levels along runs

The levels and the orders point into the slots of the index, and an erasure
from the index may move other orders to other slots.  In a run from a new book
every level stays linked through its stored orders exactly as long as no call
makes the index relocate one.
-/

namespace UltraHft.MarketData.OrderBook

open UltraHft.Lib

/-- There are always fewer stored orders than slots. -/
def KeepsRoom (instrumentId : UInt32) (calls : List BookCall) : Prop :=
  ∀ pre ∈ calls.inits, ∀ s ∈ exec instrumentId pre,
    s.1.orderCount < s.1.orders_.capacity_

instance (instrumentId : UInt32) (calls : List BookCall) :
    Decidable (KeepsRoom instrumentId calls) :=
  inferInstanceAs (Decidable (∀ _ ∈ _, _))

def NeverRelocates (instrumentId : UInt32) (calls : List BookCall) : Prop :=
  ∀ pre call, pre ++ [call] <+: calls →
    ∀ s, exec instrumentId pre = some s → ¬ s.1.Relocating call

theorem KeepsRoom.lt {instrumentId : UInt32} {calls pre : List BookCall} {s : Recorded}
    (h : KeepsRoom instrumentId calls) (hpre : pre <+: calls)
    (hs : exec instrumentId pre = some s) : s.1.orderCount < s.1.orders_.capacity_ :=
  h pre ((List.mem_inits _ _).mpr hpre) s hs

/-- The book is coherent and the ledger lists its orders. -/
def Kept (s : Recorded) : Prop := ∃ ptrs, Coherent s.1 ptrs ∧ s.1.entries ptrs = s.2

theorem Kept.new (instrumentId : UInt32) : Kept (OrderBook.new instrumentId, []) :=
  ⟨[], Coherent.new instrumentId, rfl⟩

theorem Kept.inOrder {s : Recorded} (h : Kept s) : InOrder s.1 s.2 := by
  obtain ⟨ptrs, hcoh, hent⟩ := h
  rw [← hent]
  exact hcoh.inOrder

/-- One call: the book stays coherent, or it relocates and breaks a level. -/
theorem Kept.step {s : Recorded} (h : Kept s) (hroom : s.1.orderCount < s.1.orders_.capacity_)
    (call : BookCall) : ∃ s', OrderBook.step s call = some s' ∧
      (¬ s.1.Relocating call → Kept s') ∧ (s.1.Relocating call → ¬ InOrder s'.1 s'.2) := by
  obtain ⟨b, ledger⟩ := s
  obtain ⟨ptrs, hcoh, hent⟩ := h
  have hlen : ptrs.length < b.orders_.capacity_ := by
    rw [← hcoh.arrivals.size]
    exact hroom
  obtain ⟨answer, b', hrun, -, hgood, hbad⟩ := hcoh.steps hlen call
  refine ⟨(b', ledger.record call answer), step_eq_some hrun, ?_, ?_⟩
  · intro hno
    obtain ⟨ptrs', hprog⟩ := hgood hno
    have hent' : b.entries ptrs = ledger := hent
    exact ⟨ptrs', hprog.coherent, by rw [hprog.ledger, hent']⟩
  · intro hrel
    exact hbad hrel _

theorem neverRelocates_adds {instrumentId : UInt32} {calls : List BookCall}
    (hadds : ∀ call ∈ calls, ∃ order, call = .add order) :
    NeverRelocates instrumentId calls := by
  intro pre call hpre s _
  obtain ⟨order, rfl⟩ := hadds call (hpre.subset (by simp))
  exact not_relocating rfl

theorem exec_kept {instrumentId : UInt32} {calls : List BookCall} {s : Recorded}
    (hroom : KeepsRoom instrumentId calls) (hstill : NeverRelocates instrumentId calls)
    (hexec : exec instrumentId calls = some s) : Kept s := by
  have hrun : ∃ s, exec instrumentId calls = some s ∧ Kept s := by
    apply Runs.exec_total (fun _ s => Kept s) (Kept.new instrumentId)
    intro pre call t hpre ht hkept
    obtain ⟨t', hstep, hgood, -⟩ :=
      hkept.step (hroom.lt ((List.prefix_append pre [call]).trans hpre) ht) call
    exact ⟨t', hstep, hgood (hstill pre call hpre t ht)⟩
  obtain ⟨s', hs', hkept⟩ := hrun
  obtain rfl : s = s' := Option.some.inj (hexec.symm.trans hs')
  exact hkept

/-- **All levels are linked in order throughout a run exactly when no call of
the run relocates an order.** -/
theorem inOrder_iff_neverRelocates (instrumentId : UInt32) (calls : List BookCall)
    (hroom : KeepsRoom instrumentId calls) :
    (∀ pre, pre <+: calls → ∃ s, exec instrumentId pre = some s ∧ InOrder s.1 s.2) ↔
      NeverRelocates instrumentId calls := by
  apply Runs.exec_iff_good (fun _ s => Kept s) (fun _ s => InOrder s.1 s.2)
    (fun s call => ¬ s.1.Relocating call) (Kept.new instrumentId)
  · intro pre s _ _ hkept
    exact hkept.inOrder
  · intro pre call s hpre hexec hkept
    have hpre' := (List.prefix_append pre [call]).trans hpre
    obtain ⟨s', hstep, hgood, hbad⟩ := hkept.step (hroom.lt hpre' hexec) call
    exact ⟨s', hstep, hgood, fun hrel => hbad (not_not.mp hrel)⟩

/-- The ids 803 and 2450 share a natural slot, and 2585 is at home in the slot
behind it, so 2450 is stored two slots on.  Cancelling 2585 moves it back. -/
def relocatingCancel : List BookCall :=
  [.add (some (Order.make 803 1 .buy 100 5)), .add (some (Order.make 2585 1 .buy 100 5)),
    .add (some (Order.make 2450 1 .buy 101 5)), .cancel 2585]

theorem inOrder_iff_neverRelocates_relocatingCancel :
    KeepsRoom 1 relocatingCancel ∧
      ((∀ pre, pre <+: relocatingCancel →
          ∃ s, exec 1 pre = some s ∧ InOrder s.1 s.2) ↔
        NeverRelocates 1 relocatingCancel) :=
  ⟨by decide, inOrder_iff_neverRelocates 1 relocatingCancel (by decide)⟩

/-- The best bid then points to a slot that holds no order. -/
theorem relocatingCancel_breaks_level :
    ¬ ∀ (instrumentId : UInt32) (calls : List BookCall), KeepsRoom instrumentId calls →
      ∃ s, exec instrumentId calls = some s ∧ InOrder s.1 s.2 := by
  intro hall
  obtain ⟨s, hexec, hin⟩ := hall 1 relocatingCancel (by decide)
  have hlevel : (exec 1 relocatingCancel).map (fun s => s.1.levels .buy) =
      some [{ price_ := 101, head_ := some 211883, tail_ := some 211883 },
        { price_ := 100, head_ := some 211881, tail_ := some 211881 }] := by decide
  have hempty : (exec 1 relocatingCancel).map
      (fun s => (s.1.orders_.slots 211883).occupied) = some false := by decide
  rw [hexec, Option.map_some] at hlevel hempty
  obtain ⟨walk, hlinks, -, hstored, -⟩ := hin .buy
    { price_ := 101, head_ := some 211883, tail_ := some 211883 }
    (by rw [Option.some.inj hlevel]; exact List.mem_cons_self)
  have hocc : (s.1.orders_.slots 211883).occupied = true :=
    ((hstored 211883).mp (hlinks.head_mem rfl)).1.2
  rw [Option.some.inj hempty] at hocc
  cases hocc

end UltraHft.MarketData.OrderBook
