import Mathlib.Tactic.FinCases
import UltraHft.MarketData.Proofs.OrderBook.DistinctSlots
import UltraHft.MarketData.Proofs.OrderBook.Searches
import UltraHft.MarketData.Proofs.OrderBook.StoredOrders

/-!
# What is left of the stored orders

A fill removes an order when it takes the last share of it, so an order that is
stored with shares keeps some until it leaves the book.  An order that is stored
without shares stays: no fill ever reaches it.
-/

namespace UltraHft.MarketData

open UltraHft.Lib

def Order.Fresh (o : Order) : Prop :=
  ∃ orderId instrumentId side price qty, o = Order.make orderId instrumentId side price qty

/-- Some of the shares are left, and not more than there were. -/
def Order.Open (o : Order) : Prop := 0 < o.remainingQty ∧ o.remainingQty ≤ o.qty

def BookCall.Fresh : BookCall → Prop
  | .add (some order) => order.Fresh
  | _ => True

namespace OrderBook

variable {b b' : OrderBook} {ptrs : List Nat} {id : UInt64} {j : Nat}

def AllOpen (b : OrderBook) : Prop := ∀ i, b.Stored i → (b.heap i).Open

def AddsEmpty (b : OrderBook) : BookCall → Prop
  | .add (some order) => order.qty = 0 ∧ b.orders_.find order.orderId = some none
  | _ => False

theorem allOpen_iff : b.AllOpen ↔ ∀ e ∈ b.storedOrders, e.2.Open := by
  constructor
  · intro hopen e he
    obtain ⟨i, hi, rfl⟩ := mem_storedOrders.mp he
    exact hopen i hi
  · intro hopen i hi
    exact hopen _ (mem_storedOrders.mpr ⟨i, hi, rfl⟩)

theorem allOpen_new (instrumentId : UInt32) : (new instrumentId).AllOpen := by
  intro i ⟨_, hocc⟩
  cases hocc

theorem Fresh.open_iff {o : Order} (ho : o.Fresh) : o.Open ↔ o.qty ≠ 0 := by
  obtain ⟨orderId, instrumentId, side, price, qty, rfl⟩ := ho
  change 0 < qty ∧ qty ≤ qty ↔ qty ≠ 0
  rw [UInt32.pos_iff_ne_zero]
  exact and_iff_left (UInt32.le_refl qty)

/-! ## The three calls -/

theorem AllOpen.add (h : b.AllOpen) (hb : FlatOrderMap.Constructed b.orders_) {o : Order}
    (ho : o.Open) {added : Bool} (hadd : b.addOrder (some o) = some (added, b')) :
    b'.AllOpen := by
  rcases addOrder_cases hb hadd with ⟨-, rfl⟩ | ⟨-, hgain⟩
  · exact h
  · rw [allOpen_iff] at h ⊢
    rw [hgain.storedOrders]
    intro e he
    rcases Multiset.mem_cons.mp he with rfl | he
    · exact ho
    · exact h e he

theorem AllOpen.cancel (h : b.AllOpen) (hb : FlatOrderMap.Constructed b.orders_)
    {cancelled : Bool} (hcancel : b.cancelOrder id = some (cancelled, b')) : b'.AllOpen := by
  rcases cancelOrder_cases hb hcancel with ⟨-, -, rfl⟩ | ⟨-, j, -, hgone⟩
  · exact h
  · rw [allOpen_iff] at h ⊢
    intro e he
    exact h e (hgone ▸ Multiset.mem_cons_of_mem he)

theorem Order.Open.rest {o : Order} {taken : UInt32} (ho : o.Open)
    (hlt : taken.toNat < o.remainingQty.toNat) : (OrderBook.rest o taken).Open := by
  have hle : taken ≤ o.remainingQty := UInt32.le_iff_toNat_le.mpr (Nat.le_of_lt hlt)
  have hsub := UInt32.toNat_sub_of_le _ _ hle
  have hqty := UInt32.le_iff_toNat_le.mp ho.2
  constructor
  · rw [UInt32.lt_iff_toNat_lt]
    change 0 < (o.remainingQty - taken).toNat
    omega
  · rw [UInt32.le_iff_toNat_le]
    change (o.remainingQty - taken).toNat ≤ o.qty.toNat
    omega

theorem AllOpen.execute (h : b.AllOpen) (hb : FlatOrderMap.Constructed b.orders_)
    {qty executed : UInt32} (hexecute : b.executeOrder id qty = some (executed, b')) :
    b'.AllOpen := by
  cases hj : b.orders_.probe id with
  | none =>
      rw [executeOrder_hangs hj] at hexecute
      cases hexecute
  | some j =>
      cases hocc : (b.orders_.slots j).occupied with
      | false =>
          rw [Coherent.executeOrder_absent hj hocc] at hexecute
          obtain ⟨-, rfl⟩ := Prod.mk.inj (Option.some.inj hexecute)
          exact h
      | true =>
          have hlt := FlatOrderMap.probe_lt (FlatOrderMap.sized_of_probe hb hj) hj
          have hopen := h j ⟨hlt, hocc⟩
          have hpos := UInt32.pos_iff_ne_zero.mp hopen.1
          obtain ⟨-, others, hbefore, hafter⟩ := executeOrder_takes hb hj hocc hpos hexecute
          rw [allOpen_iff] at h ⊢
          have hothers : ∀ e ∈ others, e.2.Open :=
            fun e he => h e (hbefore ▸ Multiset.mem_cons_of_mem he)
          rcases hafter with ⟨-, hgone, -⟩ | ⟨hless, -, hleft⟩
          · rw [hgone]
            exact hothers
          · rw [hleft]
            intro e he
            rcases Multiset.mem_cons.mp he with rfl | he
            · exact Order.Open.rest hopen hless
            · exact hothers e he

/-! ## Runs -/

/-- The order is stored exactly when the index does not find its id. -/
theorem addOrder_stores_iff (hb : FlatOrderMap.Constructed b.orders_) {o : Order} :
    (∃ b', b.addOrder (some o) = some (true, b') ∧ Gains b b' o) ↔
      b.orders_.find o.orderId = some none := by
  cases hj : b.orders_.probe o.orderId with
  | none => simp [addOrder_hangs hj, FlatOrderMap.find_hangs hj]
  | some j =>
      cases hocc : (b.orders_.slots j).occupied with
      | true =>
          rw [FlatOrderMap.find_of_occupied hj hocc, Coherent.addOrder_duplicate hj hocc rfl]
          simp
      | false =>
          have ⟨b', hadd, hgain⟩ := addOrder_gains hb hj hocc
          exact iff_of_true ⟨b', hadd, j, hgain⟩ (FlatOrderMap.find_of_free hj hocc)

theorem AllOpen.step {s s' : Recorded} {call : BookCall} (h : s.1.AllOpen)
    (hb : FlatOrderMap.Constructed s.1.orders_) (hfresh : call.Fresh)
    (hcall : ¬ s.1.AddsEmpty call) (hstep : OrderBook.step s call = some s') : s'.1.AllOpen := by
  obtain ⟨⟨answer, b'⟩, hrun, rfl⟩ := Option.map_eq_some_iff.mp hstep
  cases call with
  | add order =>
      obtain ⟨⟨added, b'⟩, hadd, heq⟩ := Option.map_eq_some_iff.mp hrun
      cases heq
      cases order with
      | none =>
          cases hadd
          exact h
      | some o =>
          by_cases hqty : o.qty = 0
          · rcases addOrder_cases hb hadd with ⟨-, rfl⟩ | ⟨rfl, hgain⟩
            · exact h
            · exact (hcall ⟨hqty, (addOrder_stores_iff hb).mp ⟨_, hadd, hgain⟩⟩).elim
          · exact h.add hb ((Fresh.open_iff hfresh).mpr hqty) hadd
  | cancel id =>
      obtain ⟨⟨cancelled, b'⟩, hcancel, heq⟩ := Option.map_eq_some_iff.mp hrun
      cases heq
      exact h.cancel hb hcancel
  | execute id qty =>
      obtain ⟨⟨executed, b'⟩, hexecute, heq⟩ := Option.map_eq_some_iff.mp hrun
      cases heq
      exact h.execute hb hexecute

theorem AddsEmpty.step {s : Recorded} {call : BookCall}
    (hb : FlatOrderMap.Constructed s.1.orders_) (hfresh : call.Fresh)
    (hcall : s.1.AddsEmpty call) :
    ∃ s', OrderBook.step s call = some s' ∧ ¬ s'.1.AllOpen := by
  cases call with
  | add order =>
      cases order with
      | none => exact hcall.elim
      | some o =>
          obtain ⟨b', hadd, hgain⟩ := (addOrder_stores_iff hb).mpr hcall.2
          have hrun : BookCall.run s.1 (.add (some o)) = some (.added true, b') := by
            rw [BookCall.run, hadd]
            rfl
          refine ⟨_, step_eq_some hrun, ?_⟩
          intro hopen
          have hmem : (o.orderId, o.unlinked) ∈ b'.storedOrders := by
            rw [hgain.storedOrders]
            exact Multiset.mem_cons_self ..
          have hleft := allOpen_iff.mp hopen _ hmem
          exact (Fresh.open_iff hfresh).mp hleft hcall.1
  | cancel id => exact hcall.elim
  | execute id qty => exact hcall.elim

/-- The first order of each level is stored and has shares left. -/
def TopsTrade (b : OrderBook) : Prop :=
  ∀ side, ∀ lv ∈ b.levels side, ∃ j, lv.head_ = some j ∧ b.Stored j ∧ (b.heap j).Open

theorem AllOpen.topsTrade (h : b.AllOpen) (htidy : b.Tidy) {ledger : Ledger}
    (hin : InOrder b ledger) : b.TopsTrade := by
  intro side lv hlv
  obtain ⟨j, hj⟩ := Option.ne_none_iff_exists'.mp (htidy.headed side lv hlv)
  obtain ⟨walk, hlinks, -, hstored, -⟩ := hin side lv hlv
  have hmem := ((hstored j).mp (hlinks.head_mem hj)).1
  exact ⟨j, hj, hmem, h j hmem⟩

def NeverAddsEmpty (instrumentId : UInt32) (calls : List BookCall) : Prop :=
  ∀ pre call, pre ++ [call] <+: calls →
    ∀ s, exec instrumentId pre = some s → ¬ s.1.AddsEmpty call

theorem exec_constructed {instrumentId : UInt32} {calls : List BookCall} {s : Recorded}
    (hexec : exec instrumentId calls = some s) : FlatOrderMap.Constructed s.1.orders_ := by
  apply Runs.exec_partial (fun _ (s : Recorded) => FlatOrderMap.Constructed s.1.orders_)
    (FlatOrderMap.new_constructed FlatOrderMap.kDefaultCapacity) _ hexec
  intro pre call t t' _ _ hb hstep
  exact step_constructed hb hstep

theorem NeverAddsEmpty.allOpen {instrumentId : UInt32} {calls : List BookCall}
    (h : NeverAddsEmpty instrumentId calls) (hfresh : ∀ call ∈ calls, call.Fresh)
    {s : Recorded} (hexec : exec instrumentId calls = some s) : s.1.AllOpen := by
  apply Runs.exec_partial (fun _ (s : Recorded) => s.1.AllOpen) (allOpen_new instrumentId) _ hexec
  intro pre call t t' hpre ht hopen hstep
  have hmem : call ∈ calls := hpre.subset (by simp)
  exact hopen.step (exec_constructed ht) (hfresh call hmem) (h pre call hpre t ht) hstep

theorem neverAddsEmpty_of_allOpen {instrumentId : UInt32} {calls : List BookCall}
    (hfresh : ∀ call ∈ calls, call.Fresh)
    (h : ∀ pre s, pre <+: calls → exec instrumentId pre = some s → s.1.AllOpen) :
    NeverAddsEmpty instrumentId calls := by
  intro pre call hpre s hs hcall
  have hmem : call ∈ calls := hpre.subset (by simp)
  obtain ⟨s', hstep, hnot⟩ := hcall.step (exec_constructed hs) (hfresh call hmem)
  have hs' : exec instrumentId (pre ++ [call]) = some s' := by
    rw [exec, Runs.exec_snoc]
    rw [exec] at hs
    rw [hs]
    exact hstep
  exact hnot (h _ s' hpre hs')

/-- **In every state of a run of fresh orders all stored orders have shares left
exactly when no call stores an order without shares.**  Where the levels link
the stored orders, every level then has something to trade at its front. -/
theorem allOpen_iff_neverAddsEmpty (instrumentId : UInt32) (calls : List BookCall)
    (hfresh : ∀ call ∈ calls, call.Fresh) :
    ((∀ pre s, pre <+: calls → exec instrumentId pre = some s → s.1.AllOpen) ↔
      NeverAddsEmpty instrumentId calls) ∧
    (KeepsRoom instrumentId calls → NeverRelocates instrumentId calls →
      ((∀ pre s, pre <+: calls → exec instrumentId pre = some s →
          s.1.AllOpen ∧ s.1.TopsTrade) ↔
        NeverAddsEmpty instrumentId calls)) := by
  have hopen : NeverAddsEmpty instrumentId calls →
      ∀ pre s, pre <+: calls → exec instrumentId pre = some s → s.1.AllOpen := by
    intro h pre s hpre hs
    have hpre' : NeverAddsEmpty instrumentId pre :=
      fun p call hp => h p call (hp.trans hpre)
    exact hpre'.allOpen (fun call hc => hfresh call (hpre.subset hc)) hs
  refine ⟨⟨neverAddsEmpty_of_allOpen hfresh, hopen⟩, ?_⟩
  intro hroom hstill
  constructor
  · intro hall
    exact neverAddsEmpty_of_allOpen hfresh fun pre s hpre hs => (hall pre s hpre hs).1
  · intro h pre s hpre hs
    obtain ⟨s', hs', hin⟩ :=
      (inOrder_iff_neverRelocates instrumentId calls hroom).mpr hstill pre hpre
    obtain rfl : s = s' := Option.some.inj (hs.symm.trans hs')
    have hleft := hopen h pre s hpre hs
    exact ⟨hleft, hleft.topsTrade (exec_tidy hs) hin⟩

theorem allOpen_iff_neverAddsEmpty_threeOrders :
    NeverAddsEmpty 1 threeOrders ∧ ∀ pre s, pre <+: threeOrders → exec 1 pre = some s →
      s.1.AllOpen ∧ s.1.TopsTrade := by
  have hfresh : ∀ call ∈ threeOrders, call.Fresh := by
    intro call hcall
    fin_cases hcall
    all_goals first | trivial | exact ⟨_, _, _, _, _, rfl⟩
  have hshares : NeverAddsEmpty 1 threeOrders := by
    intro pre call hpre s _
    have hmem : call ∈ threeOrders := hpre.subset (by simp)
    fin_cases hmem
    all_goals simp [AddsEmpty, Order.make]
  have hstill : NeverRelocates 1 threeOrders :=
    neverRelocates_of_distinctSlots 1 (leavesRoom_of_length (by decide)) (by decide)
  obtain ⟨-, htops⟩ := allOpen_iff_neverAddsEmpty 1 threeOrders hfresh
  exact ⟨hshares, (htops (by decide) hstill).mpr hshares⟩

/-- An order of no shares, which a later execution does not take out. -/
def emptyBid : List BookCall := [.add (some (Order.make 1 1 .buy 100 0)), .execute 1 5]

theorem emptyBid_not_allOpen :
    ¬ ∀ (instrumentId : UInt32) (calls : List BookCall), (∀ call ∈ calls, call.Fresh) →
      ∀ s, exec instrumentId calls = some s → s.1.AllOpen := by
  intro hall
  have hstored : (exec 1 emptyBid).map (fun s =>
      decide (183084 < s.1.orders_.capacity_) && (s.1.orders_.slots 183084).occupied &&
        decide ((s.1.heap 183084).remainingQty = 0)) = some true := by decide
  obtain ⟨s, hexec, hslot⟩ := Option.map_eq_some_iff.mp hstored
  have hfresh : ∀ call ∈ emptyBid, call.Fresh := by
    intro call hcall
    rcases List.mem_pair.mp hcall with rfl | rfl
    · exact ⟨1, 1, .buy, 100, 0, rfl⟩
    · trivial
  simp only [Bool.and_eq_true, decide_eq_true_eq] at hslot
  have hopen := hall 1 emptyBid hfresh s hexec 183084 hslot.1
  rw [Order.Open, hslot.2] at hopen
  exact absurd hopen.1 (by decide)

example : (exec 1 emptyBid).map (fun s => s.1.bestBid) = some (some 100) := by decide

end OrderBook

end UltraHft.MarketData
