import UltraHft.MarketData.Proofs.OrderBook.Consistent
import UltraHft.MarketData.Proofs.OrderBook.StoredOrders

/-!
# Repeated executions of one order

Executions take what they ask for until nothing is left of the order.  The one
that takes the last share cancels it, which may move other orders between the
slots, and the later ones find nothing.
-/

namespace UltraHft.MarketData

open UltraHft.Lib

theorem FlatOrderMap.find_erased {m m' : FlatOrderMap} {key : UInt64} {j : Nat} (hm : Sized m)
    (hj : m.probe key = some j) (hocc : (m.slots j).occupied = true)
    (halone : ∀ p < m.capacity_, (m.slots p).occupied = true → (m.slots p).key = key → p = j)
    {ok : Bool} (her : m.erase key = some (ok, m')) : m'.find key = some none := by
  have hlt := probe_lt hm hj
  obtain ⟨slots, hs⟩ := backwardShift_returns hm hlt
  rw [erase_of_occupied hj hocc hs] at her
  obtain ⟨-, rfl⟩ := Prod.mk.inj (Option.some.inj her)
  obtain ⟨π, hπ, hcells⟩ := backwardShift_rearranges hm hlt hs
  have hm' : Sized { m with slots, size_ := sizePred m.size_ } := ⟨hm.pow2, hm.mask⟩
  apply find_eq_none_iff.mpr
  apply probe_of_absent hm'
  · refine ⟨π.symm j, (hπ _).mp (by rwa [π.apply_symm_apply]), cellsOf_eq_none.mp ?_⟩
    rw [hcells, Function.comp_apply, π.apply_symm_apply, vacated, Function.update_self]
  · intro p hp hocc' hkey
    have hcell : m.vacated j (π p) = some (slots p) := by
      have hsome := cellsOf_eq_some.mpr ⟨hocc', rfl⟩
      rw [hcells] at hsome
      exact hsome
    have hne : π p ≠ j := by
      intro heq
      rw [heq, vacated, Function.update_self] at hcell
      cases hcell
    rw [vacated, Function.update_of_ne hne] at hcell
    obtain ⟨hold, hslot⟩ := cells_eq_some.mp hcell
    exact hne (halone (π p) ((hπ p).mpr hp) hold (by rw [hslot]; exact hkey))

namespace OrderBook

variable {b b' : OrderBook} {id : UInt64} {j : Nat}

/-- The probe for the id ends at slot `j`, and no other slot holds the id. -/
structure HeldAt (b : OrderBook) (id : UInt64) (j : Nat) : Prop where
  sized : FlatOrderMap.Sized b.orders_
  probe : b.orders_.probe id = some j
  occupied : (b.orders_.slots j).occupied = true
  alone : ∀ p, b.Stored p → (b.orders_.slots p).key = id → p = j

def executeAll (id : UInt64) : OrderBook → List UInt32 → Option (List UInt32 × OrderBook)
  | b, [] => some ([], b)
  | b, qty :: qtys => do
      let (executed, b) ← b.executeOrder id qty
      let (later, b) ← executeAll id b qtys
      some (executed :: later, b)

def shares (qtys : List UInt32) : Nat := (qtys.map UInt32.toNat).sum

theorem Consistent.heldAt (h : Consistent b) (hfind : b.orders_.find id = some (some j)) :
    HeldAt b id j := by
  obtain ⟨hj, hocc⟩ := FlatOrderMap.find_eq_some_iff.mp hfind
  refine ⟨h.sized, hj, hocc, ?_⟩
  intro p hp hkey
  have hkeyj := FlatOrderMap.probe_key h.sized hj hocc
  have hjs : b.Stored j := ⟨FlatOrderMap.probe_lt h.sized hj, hocc⟩
  apply h.unique hp hjs
  rw [← h.keyed hp, ← h.keyed hjs, hkey, hkeyj]

namespace HeldAt

theorem reduced (h : HeldAt b id j) (left : UInt32) : HeldAt (b.reduced j left) id j :=
  ⟨⟨h.sized.pow2, h.sized.mask⟩, h.probe, h.occupied, h.alone⟩

theorem key (h : HeldAt b id j) : (b.orders_.slots j).key = id :=
  FlatOrderMap.probe_key h.sized h.probe h.occupied

theorem find_cancelled (h : HeldAt b id j) {cancelled : Bool}
    (hcancel : b.cancelOrder id = some (cancelled, b')) : b'.orders_.find id = some none := by
  obtain ⟨heap, -, horders⟩ := unlink_orders b j
  have hm : FlatOrderMap.Sized (b.unlink j).orders_ := by
    rw [horders]
    exact ⟨h.sized.pow2, h.sized.mask⟩
  have hj : (b.unlink j).orders_.probe id = some j := by
    rw [horders]
    exact h.probe
  have hocc : ((b.unlink j).orders_.slots j).occupied = true := by
    rw [horders]
    exact h.occupied
  obtain ⟨⟨ok, m⟩, her, -⟩ := FlatOrderMap.erase_returns (.inr hm) hj
  rw [Coherent.cancelOrder_present h.probe h.occupied her] at hcancel
  obtain ⟨-, rfl⟩ := Prod.mk.inj (Option.some.inj hcancel)
  apply FlatOrderMap.find_erased hm hj hocc _ her
  rw [horders]
  intro p hp hoccp hkey
  exact h.alone p ⟨hp, hoccp⟩ hkey

end HeldAt

theorem executeAll_absent (hfind : b.orders_.find id = some none) (qtys : List UInt32) :
    executeAll id b qtys = some (List.replicate qtys.length 0, b) := by
  obtain ⟨j, hj, hfree⟩ := FlatOrderMap.find_eq_none_iff.mp hfind
  induction qtys with
  | nil => rfl
  | cons qty qtys ih =>
      rw [executeAll, Coherent.executeOrder_absent hj hfree]
      dsimp only [Option.bind_eq_bind, Option.bind_some]
      rw [ih]
      rfl

theorem shares_cons (qty : UInt32) (qtys : List UInt32) :
    shares (qty :: qtys) = qty.toNat + shares qtys :=
  List.sum_cons

theorem shares_replicate_zero (n : Nat) : shares (List.replicate n 0) = 0 := by
  induction n with
  | zero => rfl
  | succ n ih => simp [shares, List.replicate_succ]

/-- What executions have made of the book: the order in slot `j` has lost
`taken` shares, or is gone with the last of them; the others are as before. -/
structure Filled (b b' : OrderBook) (id : UInt64) (j taken : Nat) : Prop where
  others : ∃ others, b.storedOrders = (id, (b.heap j).unlinked) ::ₘ others ∧
    (taken < (b.heap j).remainingQty.toNat → b'.storedOrders =
      (id, { (b.heap j).unlinked with remainingQty := (b'.heap j).remainingQty }) ::ₘ others) ∧
    (taken = (b.heap j).remainingQty.toNat → b'.storedOrders = others)
  rest : taken < (b.heap j).remainingQty.toNat → b'.orders_.find id = some (some j) ∧
    (b'.heap j).remainingQty.toNat = (b.heap j).remainingQty.toNat - taken
  gone : taken = (b.heap j).remainingQty.toNat → b'.orders_.find id = some none

namespace HeldAt

theorem entry (h : HeldAt b id j) :
    (b.orders_.slots j).entry = (id, (b.heap j).unlinked) :=
  Prod.ext h.key rfl

theorem filled_zero (h : HeldAt b id j) (hpos : (b.heap j).remainingQty ≠ 0) :
    Filled b b id j 0 := by
  have hleft : (b.heap j).remainingQty.toNat ≠ 0 :=
    fun hzero => hpos (UInt32.toNat_inj.mp hzero)
  have hlt := FlatOrderMap.probe_lt h.sized h.probe
  have hsplit := FlatOrderMap.entries_split hlt h.occupied
  rw [h.entry] at hsplit
  constructor
  case others => exact ⟨_, hsplit, fun _ => hsplit, fun hzero => (hleft hzero.symm).elim⟩
  case rest => exact fun _ => ⟨FlatOrderMap.find_of_occupied h.probe h.occupied, rfl⟩
  case gone => exact fun hzero => (hleft hzero.symm).elim

theorem filled_add (h : HeldAt b id j) {executed : UInt32} {taken : Nat}
    (hless : executed.toNat < (b.heap j).remainingQty.toNat)
    (hrest : Filled (b.reduced j ((b.heap j).remainingQty - executed)) b' id j taken) :
    Filled b b' id j (executed.toNat + taken) := by
  have hlt := FlatOrderMap.probe_lt h.sized h.probe
  have hle : executed ≤ (b.heap j).remainingQty :=
    UInt32.le_iff_toNat_le.mpr (Nat.le_of_lt hless)
  have hleft := UInt32.toNat_sub_of_le _ _ hle
  have hheap := heap_reduced b j ((b.heap j).remainingQty - executed) j
  rw [if_pos rfl] at hheap
  obtain ⟨⟨others, hbefore, hpart, hfull⟩, hfind, hgone⟩ := hrest
  rw [hheap] at hbefore hpart hfull hfind hgone
  dsimp only at hpart hfull hfind hgone
  obtain ⟨others', hbefore', hreduced⟩ :=
    storedOrders_reduced hlt h.occupied ((b.heap j).remainingQty - executed)
  rw [h.key] at hreduced
  have hsame : others = others' := by
    rw [hreduced] at hbefore
    exact ((Multiset.cons_inj_right _).mp hbefore).symm
  subst hsame
  rw [h.entry] at hbefore'
  constructor
  case others =>
    refine ⟨others, hbefore', ?_, ?_⟩
    · intro hlt'
      exact hpart (by omega)
    · intro heq
      exact hfull (by omega)
  case rest =>
    intro hlt'
    obtain ⟨hfound, hremaining⟩ := hfind (by omega)
    exact ⟨hfound, by omega⟩
  case gone =>
    intro heq
    exact hgone (by omega)

/-- By induction on the quantities: an execution leaves some of the order for
the next ones, or takes the last share and leaves them nothing. -/
theorem executeAll (h : HeldAt b id j) (hpos : (b.heap j).remainingQty ≠ 0)
    (qtys : List UInt32) : ∃ taken b', executeAll id b qtys = some (taken, b') ∧
      taken.length = qtys.length ∧
      shares taken = min (shares qtys) (b.heap j).remainingQty.toNat ∧
      Filled b b' id j (shares taken) := by
  induction qtys generalizing b with
  | nil => exact ⟨[], b, rfl, rfl, (Nat.zero_min _).symm, h.filled_zero hpos⟩
  | cons qty qtys ih =>
      obtain ⟨⟨executed, b₁⟩, hrun, -⟩ := executeOrder_returns (.inr h.sized) h.probe qty
      obtain ⟨hmin, others, hbefore, ⟨rfl, hothers, hcancel⟩ | ⟨hless, rfl, -⟩⟩ :=
        executeOrder_takes (.inr h.sized) h.probe h.occupied hpos hrun
      · have hgone := (h.reduced 0).find_cancelled hcancel
        have hsum : shares ((b.heap j).remainingQty :: List.replicate qtys.length 0) =
            (b.heap j).remainingQty.toNat := by
          rw [shares_cons, shares_replicate_zero, Nat.add_zero]
        refine ⟨(b.heap j).remainingQty :: List.replicate qtys.length 0, b₁, ?_, by simp, ?_, ?_⟩
        · rw [OrderBook.executeAll, hrun]
          dsimp only [Option.bind_eq_bind, Option.bind_some]
          rw [executeAll_absent hgone]
          rfl
        · rw [hsum, shares_cons]
          omega
        · rw [hsum]
          rw [h.entry] at hbefore
          exact ⟨⟨others, hbefore, fun hlt => (lt_irrefl _ hlt).elim, fun _ => hothers⟩,
            fun hlt => (lt_irrefl _ hlt).elim, fun _ => hgone⟩
      · have hle : executed ≤ (b.heap j).remainingQty :=
          UInt32.le_iff_toNat_le.mpr (Nat.le_of_lt hless)
        have hleft := UInt32.toNat_sub_of_le _ _ hle
        have hheap : ((b.reduced j ((b.heap j).remainingQty - executed)).heap j).remainingQty =
            (b.heap j).remainingQty - executed := by
          rw [heap_reduced, if_pos rfl]
        have hpos' : (b.heap j).remainingQty - executed ≠ 0 := by
          intro hzero
          rw [hzero, UInt32.toNat_zero] at hleft
          omega
        obtain ⟨taken, b', hall, hlen, hsum, hfilled⟩ :=
          ih (h.reduced _) (by rw [hheap]; exact hpos')
        rw [hheap] at hsum
        refine ⟨executed :: taken, b', ?_, by simp [hlen], ?_, ?_⟩
        · rw [OrderBook.executeAll, hrun]
          dsimp only [Option.bind_eq_bind, Option.bind_some]
          rw [hall]
          rfl
        · rw [shares_cons, shares_cons]
          omega
        · rw [shares_cons]
          exact h.filled_add hless hfilled

end HeldAt

/-- **Executions of one order return as much as they ask for in all, or all that
was left of it.**  What remains is what is not returned, the order is gone when
that is nothing, and no other stored order has changed but in its links. -/
theorem executeAll_takes (h : Consistent b) (hfind : b.orders_.find id = some (some j))
    (hpos : (b.heap j).remainingQty ≠ 0) (qtys : List UInt32) :
    ∃ taken b', executeAll id b qtys = some (taken, b') ∧
      taken.length = qtys.length ∧
      shares taken = min (shares qtys) (b.heap j).remainingQty.toNat ∧
      Filled b b' id j (shares taken) :=
  (h.heldAt hfind).executeAll hpos qtys

/-- Two bids at one price, of which the first is filled by the third execution. -/
theorem executeAll_takes_twoBids : ∃ b j, Consistent b ∧ b.orders_.find 1 = some (some j) ∧
    (b.heap j).remainingQty = 5 ∧
    ∃ taken b', executeAll 1 b [3, 0, 4, 2] = some (taken, b') ∧ taken.length = 4 ∧
      shares taken = 5 ∧ Filled b b' 1 j 5 := by
  obtain ⟨s, hexec, hcons⟩ := exec_adds_consistent 1
    [some (Order.make 1 1 .buy 100 5), some (Order.make 2 1 .buy 100 7)] (by decide)
  have hfound : (exec 1 [.add (some (Order.make 1 1 .buy 100 5)),
      .add (some (Order.make 2 1 .buy 100 7))]).map (fun s =>
        (s.1.orders_.find 1, (s.1.heap 183084).remainingQty)) =
      some (some (some 183084), 5) := by decide
  rw [List.map_cons, List.map_singleton] at hexec
  rw [hexec, Option.map_some] at hfound
  obtain ⟨hfind, hleft⟩ := Prod.mk.inj (Option.some.inj hfound)
  obtain ⟨taken, b', hall, hlen, hsum, hfilled⟩ :=
    executeAll_takes hcons hfind (by rw [hleft]; decide) [3, 0, 4, 2]
  have hfive : shares taken = 5 := by
    rw [hsum, hleft]
    rfl
  rw [hfive] at hfilled
  exact ⟨s.1, 183084, hcons, hfind, hleft, taken, b', hall, hlen, hfive, hfilled⟩

end OrderBook

end UltraHft.MarketData
