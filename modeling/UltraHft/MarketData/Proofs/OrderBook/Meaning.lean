import UltraHft.Lib.PriceTime
import UltraHft.Lib.Simulation
import UltraHft.MarketData.Proofs.OrderBook.TopOfBook

/-!
# What the calls mean

The slots, the probe paths and the links between the orders are an
implementation of a price-time book.  A call that finds a free slot and breaks no
probe path is answered as that book answers it, executions with the exact
quantity, and the stored orders are again the ones of that book.
-/

namespace UltraHft.MarketData

open UltraHft.Lib

/-! ## What is meant -/

def Side.meaning : Side → PriceTime.Side
  | .buy => .bid
  | .sell => .ask

def Order.meaning (o : Order) : PriceTime.Resting UInt64 Nat where
  id := o.orderId
  side := o.side.meaning
  price := o.price.toNat
  left := o.remainingQty.toNat

def BookCall.meaning : BookCall → PriceTime.Call UInt64 Nat
  | .add none => .skip
  | .add (some order) => .add order.meaning
  | .cancel orderId => .cancel orderId
  | .execute orderId qty => .execute orderId qty.toNat

def Answer.meaning : Answer → PriceTime.Answer
  | .added ok => .done ok
  | .cancelled ok => .done ok
  | .executed qty => .executed qty.toNat

theorem Side.meaning_inj {s s' : Side} : s.meaning = s'.meaning ↔ s = s' := by
  cases s <;> cases s' <;> decide

theorem Order.meaning_unlinked (o : Order) : o.unlinked.meaning = o.meaning := rfl

namespace Ledger

def meaning (l : Ledger) : List (PriceTime.Resting UInt64 Nat) := l.map Order.meaning

theorem meaning_ids (l : Ledger) : l.meaning.map PriceTime.Resting.id = l.ids := by
  rw [meaning, List.map_map]
  rfl

theorem meaning_rests (l : Ledger) (side : Side) (price : UInt64) :
    (l.filter (OrderBook.restsAt side price)).map Order.meaning =
      l.meaning.filter fun o => o.side = side.meaning ∧ o.price = price.toNat := by
  rw [meaning, List.filter_map]
  congr 1
  apply List.filter_congr
  intro o _
  simp [OrderBook.restsAt, Order.meaning, Side.meaning_inj, UInt64.toNat_inj]

theorem meaning_amendLatest {l : Ledger} (hnd : l.ids.Nodup) {o : Order} (ho : o ∈ l)
    {f : Order → Option Order} {g : Nat → Option Nat}
    (hfg : (f o).map Order.meaning =
      (g o.remainingQty.toNat).map fun n => { o.meaning with left := n }) :
    (l.amendLatest o.orderId f).meaning =
      l.meaning.filterMap (PriceTime.Book.amended o.orderId g) := by
  obtain ⟨l₁, l₂, rfl⟩ := List.append_of_mem ho
  rw [ids, List.map_append, List.map_cons, List.nodup_append] at hnd
  obtain ⟨-, hnd₂, hcross⟩ := hnd
  have hbefore : ∀ x ∈ Ledger.meaning l₁, x.id ≠ o.orderId := by
    intro x hx
    obtain ⟨y, hy, rfl⟩ := List.mem_map.mp hx
    exact hcross _ (List.mem_map_of_mem hy) _ List.mem_cons_self
  have hlater : ∀ y ∈ l₂, y.orderId ≠ o.orderId := by
    intro y hy heq
    exact (List.nodup_cons.mp hnd₂).1 (heq ▸ List.mem_map_of_mem hy)
  have hafter : ∀ x ∈ Ledger.meaning l₂, x.id ≠ o.orderId := by
    intro x hx
    obtain ⟨y, hy, rfl⟩ := List.mem_map.mp hx
    exact hlater y hy
  have hself : PriceTime.Book.amended o.orderId g o.meaning = (f o).map Order.meaning := by
    rw [PriceTime.Book.amended_self g (show o.meaning.id = o.orderId from rfl)]
    exact hfg.symm
  have hsplit : meaning (l₁ ++ o :: l₂) = meaning l₁ ++ o.meaning :: meaning l₂ := by
    simp [meaning]
  have hmiddle : [o.meaning].filterMap (PriceTime.Book.amended o.orderId g) =
      (f o).toList.map Order.meaning := by
    cases hf : f o with
    | none => simp [hself, hf]
    | some o' => simp [hself, hf]
  calc (amendLatest o.orderId f (l₁ ++ o :: l₂)).meaning
    _ = meaning (l₁ ++ (f o).toList ++ l₂) := by rw [amendLatest_append_cons hlater rfl]
    _ = meaning l₁ ++ (f o).toList.map Order.meaning ++ meaning l₂ := by simp [meaning]
    _ = (meaning l₁).filterMap (PriceTime.Book.amended o.orderId g) ++
          [o.meaning].filterMap (PriceTime.Book.amended o.orderId g) ++
          (meaning l₂).filterMap (PriceTime.Book.amended o.orderId g) := by
        rw [hmiddle, PriceTime.Book.filterMap_amended_of_notMem g hbefore,
          PriceTime.Book.filterMap_amended_of_notMem g hafter]
    _ = (meaning (l₁ ++ o :: l₂)).filterMap (PriceTime.Book.amended o.orderId g) := by
        rw [hsplit, ← List.filterMap_append, ← List.filterMap_append, List.append_assoc]
        rfl

end Ledger

namespace OrderBook

variable {b b' : OrderBook} {ptrs : List Nat} {call : BookCall} {answer : Answer}
  {book : PriceTime.Book UInt64 Nat}

/-! ## Executions -/

theorem Sound.executed (h : Sound b ptrs) (hroom : ptrs.length < b.orders_.capacity_)
    {id : UInt64} {qty : UInt32} (hrun : (BookCall.execute id qty).run b = some (answer, b')) :
    (id ∉ live (b.entries ptrs) → answer = .executed 0) ∧
      ∀ o ∈ b.entries ptrs, o.orderId = id →
        answer = .executed (if qty > o.remainingQty then o.remainingQty else qty) := by
  obtain ⟨⟨executed, b''⟩, hex, heq⟩ := Option.map_eq_some_iff.mp hrun
  obtain ⟨rfl, rfl⟩ := Prod.mk.inj heq
  obtain ⟨j, hj⟩ := h.arrivals.probe_returns hroom id
  cases hocc : (b.orders_.slots j).occupied with
  | false =>
      rw [Coherent.executeOrder_absent hj hocc] at hex
      obtain ⟨rfl, rfl⟩ := Prod.mk.inj (Option.some.inj hex)
      refine ⟨fun _ => rfl, ?_⟩
      intro o ho hid
      have hnot : id ∉ live (b.entries ptrs) := by
        rw [← found_iff h.toCoherent hroom h.chained id, found_of_free hj hocc]
        decide
      exact (hnot (List.mem_toFinset.mpr (hid ▸ List.mem_map_of_mem ho))).elim
  | true =>
      obtain ⟨l₁, l₂, rfl, hid, -⟩ := h.toCoherent.latest hj hocc
      have hmem : (b.heap j).unlinked ∈ b.entries (l₁ ++ j :: l₂) := by
        rw [Coherent.entries_split]
        simp
      have hlive : id ∈ live (b.entries (l₁ ++ j :: l₂)) :=
        List.mem_toFinset.mpr (hid ▸ List.mem_map_of_mem hmem)
      refine ⟨fun hout => (hout hlive).elim, ?_⟩
      intro o ho hoid
      -- no other order has the id
      obtain rfl : o = (b.heap j).unlinked :=
        List.inj_on_of_nodup_map h.distinct ho hmem (hoid.trans hid.symm)
      obtain ⟨clamped, hclamp⟩ : ∃ e, (if qty > (b.heap j).remainingQty then
          (b.heap j).remainingQty else qty) = e := ⟨_, rfl⟩
      change Answer.executed executed = .executed
        (if qty > (b.heap j).remainingQty then (b.heap j).remainingQty else qty)
      rw [hclamp]
      congr 1
      by_cases hzero : (b.heap j).remainingQty = 0
      · rw [Coherent.executeOrder_spent hj hocc hzero] at hex
        rw [← (Prod.mk.inj (Option.some.inj hex)).1, ← hclamp, hzero, ← UInt32.toNat_inj,
          Coherent.toNat_clamp]
        simp
      · rw [Coherent.executeOrder_found hj hocc hzero hclamp] at hex
        split_ifs at hex
        · obtain ⟨r, -, hr⟩ := Option.map_eq_some_iff.mp hex
          exact (congrArg Prod.fst hr).symm
        · exact (congrArg Prod.fst (Option.some.inj hex)).symm

/-! ## One call -/

theorem fill_meaning {o : Order} {qty executed : UInt32}
    (hex : (if qty > o.remainingQty then o.remainingQty else qty) = executed)
    (hpos : executed ≠ 0) :
    (Ledger.fill executed o).map Order.meaning =
      (PriceTime.Book.fill qty.toNat o.remainingQty.toNat).map fun n =>
        { o.meaning with left := n } := by
  have hmin := Coherent.toNat_clamp qty o.remainingQty
  have hleft := Coherent.toNat_left qty o.remainingQty
  have hzero := Coherent.left_eq_zero_iff o.remainingQty qty
  rw [hex] at hmin hleft hzero
  have hsome : executed.toNat ≠ 0 := fun h => hpos (UInt32.toNat_inj.mp h)
  rw [UInt32.le_iff_toNat_le] at hzero
  unfold Ledger.fill PriceTime.Book.fill
  by_cases hfull : o.remainingQty.toNat ≤ qty.toNat
  · rw [if_pos (hzero.mpr hfull), if_pos (by omega)]
    rfl
  · rw [if_neg fun h => hfull (hzero.mp h), if_neg (by omega), ← hleft]
    rfl

section Matches

variable (hbook : (b.entries ptrs).meaning = book.orders)
include hbook

theorem mem_ids_iff (id : UInt64) : id ∈ book.ids ↔ id ∈ live (b.entries ptrs) := by
  rw [PriceTime.Book.ids, ← hbook, Ledger.meaning_ids, live, List.mem_toFinset]

theorem id_ne_of_notMem_live {id : UInt64} (h : id ∉ live (b.entries ptrs)) :
    ∀ o ∈ book.orders, o.id ≠ id := by
  rintro o ho rfl
  exact h ((mem_ids_iff hbook o.id).mp (List.mem_map_of_mem ho))

theorem add_matches (o : Order) :
    (Answer.added (decide (o.orderId ∉ live (b.entries ptrs)))).meaning =
        (book.next (.add o.meaning)).1 ∧
      ((b.entries ptrs).record (.add (some o))
          (.added (decide (o.orderId ∉ live (b.entries ptrs))))).meaning =
        (book.next (.add o.meaning)).2.orders := by
  rw [PriceTime.Book.next]
  by_cases hlive : o.orderId ∈ live (b.entries ptrs)
  · rw [dif_pos ((mem_ids_iff hbook o.meaning.id).mpr hlive)]
    simpa [hlive, Answer.meaning, Ledger.record] using hbook
  · rw [dif_neg fun hin => hlive ((mem_ids_iff hbook o.meaning.id).mp hin)]
    simp only [hlive, not_false_eq_true, decide_true, Answer.meaning, Ledger.record,
      PriceTime.Book.push, true_and]
    rw [← hbook]
    simp [Ledger.meaning, Order.meaning_unlinked]

theorem cancel_matches (hdistinct : (b.entries ptrs).ids.Nodup) (id : UInt64) :
    (Answer.cancelled (decide (id ∈ live (b.entries ptrs)))).meaning =
        (book.next (.cancel id)).1 ∧
      ((b.entries ptrs).record (.cancel id)
          (.cancelled (decide (id ∈ live (b.entries ptrs))))).meaning =
        (book.next (.cancel id)).2.orders := by
  refine ⟨by simp [Answer.meaning, PriceTime.Book.next, mem_ids_iff hbook], ?_⟩
  change _ = book.orders.filterMap (PriceTime.Book.amended id fun _ => none)
  by_cases hlive : id ∈ live (b.entries ptrs)
  · obtain ⟨o, ho, rfl⟩ := List.mem_map.mp (List.mem_toFinset.mp hlive)
    rw [← hbook, ← Ledger.meaning_amendLatest hdistinct ho (f := fun _ => none) rfl]
    simp [hlive, Ledger.record]
  · rw [PriceTime.Book.filterMap_amended_of_notMem _ (id_ne_of_notMem_live hbook hlive), ← hbook]
    simp [hlive, Ledger.record]

theorem execute_matches (hdistinct : (b.entries ptrs).ids.Nodup) {o : Order}
    (ho : o ∈ b.entries ptrs) {qty executed : UInt32}
    (hex : (if qty > o.remainingQty then o.remainingQty else qty) = executed) :
    (Answer.executed executed).meaning = (book.next (.execute o.orderId qty.toNat)).1 ∧
      ((b.entries ptrs).record (.execute o.orderId qty) (.executed executed)).meaning =
        (book.next (.execute o.orderId qty.toNat)).2.orders := by
  have hmin := Coherent.toNat_clamp qty o.remainingQty
  rw [hex] at hmin
  have hin : o.meaning ∈ book.orders := by
    rw [← hbook]
    exact List.mem_map_of_mem ho
  have htaken : book.taken o.orderId qty.toNat = executed.toNat :=
    (PriceTime.Book.taken_of_mem hin qty.toNat).trans hmin.symm
  refine ⟨by rw [PriceTime.Book.next, htaken, Answer.meaning], ?_⟩
  change _ = book.orders.filterMap
    (PriceTime.Book.amended o.orderId (PriceTime.Book.fill qty.toNat))
  by_cases hzero : executed = 0
  · rw [hzero, UInt32.toNat_zero] at hmin
    rw [PriceTime.Book.filterMap_amended_eq_self, ← hbook, hzero]
    · rfl
    · intro o' ho' hid
      obtain rfl : o' = o.meaning := List.inj_on_of_nodup_map book.distinct ho' hin hid
      exact PriceTime.Book.fill_of_min hmin.symm
  · rw [← hbook, ← Ledger.meaning_amendLatest hdistinct ho (fill_meaning hex hzero),
      Ledger.record, if_neg hzero]

/-- The answer and the ledger that follow are the ones of the price-time book. -/
theorem Sound.matches (h : Sound b ptrs) (hroom : ptrs.length < b.orders_.capacity_)
    (hrun : call.run b = some (answer, b')) (hans : Answers b call answer) :
    answer.meaning = (book.next call.meaning).1 ∧
      ((b.entries ptrs).record call answer).meaning = (book.next call.meaning).2.orders := by
  have htrue := h.truthful hroom hans
  cases call with
  | add order =>
      cases order with
      | none =>
          rw [show answer = .added false from htrue]
          exact ⟨rfl, hbook⟩
      | some o =>
          rw [show answer = .added (decide (o.orderId ∉ live (b.entries ptrs))) from htrue]
          exact add_matches hbook o
  | cancel id =>
      rw [show answer = .cancelled (decide (id ∈ live (b.entries ptrs))) from htrue]
      exact cancel_matches hbook h.distinct id
  | execute id qty =>
      obtain ⟨habsent, hpresent⟩ := h.executed hroom hrun
      by_cases hlive : id ∈ live (b.entries ptrs)
      · obtain ⟨o, ho, rfl⟩ := List.mem_map.mp (List.mem_toFinset.mp hlive)
        rw [hpresent o ho rfl]
        exact execute_matches hbook h.distinct ho rfl
      · have hother := id_ne_of_notMem_live hbook hlive
        rw [habsent hlive, BookCall.meaning, PriceTime.Book.next,
          PriceTime.Book.taken_of_notMem fun hin => hlive ((mem_ids_iff hbook id).mp hin)]
        refine ⟨rfl, ?_⟩
        change _ = book.orders.filterMap _
        rw [PriceTime.Book.filterMap_amended_of_notMem _ hother]
        exact hbook

end Matches

/-! ## Implementing a price-time book -/

/-- The orders stored in the slots `ptrs`, in the order of their arrival, are the
ones of the book. -/
structure Stores (b : OrderBook) (ptrs : List Nat) (book : PriceTime.Book UInt64 Nat) : Prop
    extends Sound b ptrs where
  orders : (b.entries ptrs).meaning = book.orders
  capacity : b.orders_.capacity_ = FlatOrderMap.kDefaultCapacity.toNat

/-- There is a free slot, and the call breaks no probe path. -/
def Serviceable (b : OrderBook) (book : PriceTime.Book UInt64 Nat) (call : BookCall) : Prop :=
  book.orders.length < FlatOrderMap.kDefaultCapacity.toNat ∧ ¬ b.Crossing call

namespace Stores

theorem new (instrumentId : UInt32) : Stores (OrderBook.new instrumentId) [] .empty := by
  have hcap : (FlatOrderMap.new FlatOrderMap.kDefaultCapacity).capacity_ =
      FlatOrderMap.kDefaultCapacity.toNat := by decide
  exact ⟨Sound.new instrumentId, rfl, hcap⟩

theorem length_eq (h : Stores b ptrs book) : ptrs.length = book.orders.length := by
  rw [← h.orders, Ledger.meaning, entries, List.length_map, List.length_map]

theorem step (h : Stores b ptrs book) (hcall : Serviceable b book call) :
    ∃ answer b' ptrs', call.run b = some (answer, b') ∧
      Progress b ptrs call answer b' ptrs' ∧ answer.meaning = (book.next call.meaning).1 ∧
      Stores b' ptrs' (book.next call.meaning).2 := by
  have hlen : ptrs.length < b.orders_.capacity_ := by
    rw [h.capacity, h.length_eq]
    exact hcall.1
  obtain ⟨answer, b', hrun, hans, hgood, -⟩ := h.toCoherent.steps hlen call
  obtain ⟨ptrs', hprog⟩ := hgood (Sound.not_relocating h.toCoherent hcall.2)
  obtain ⟨hanswer, horders⟩ := h.toSound.matches h.orders hlen hrun hans
  refine ⟨answer, b', ptrs', hrun, hprog, hanswer, h.toSound.step hlen hans hprog hcall.2, ?_, ?_⟩
  · rw [hprog.ledger, horders]
  · rw [hprog.capacity, h.capacity]

end Stores

def Implements (b : OrderBook) (book : PriceTime.Book UInt64 Nat) : Prop :=
  ∃ ptrs, Stores b ptrs book

theorem run_matches : Simulation.Matches (fun b call => BookCall.run b call)
    PriceTime.Book.next BookCall.meaning Answer.meaning Implements Serviceable := by
  intro b book call ⟨ptrs, hstores⟩ hcall
  obtain ⟨answer, b', ptrs', hrun, -, hanswer, hstores'⟩ := hstores.step hcall
  exact ⟨answer, b', hrun, hanswer, ptrs', hstores'⟩

/-! ## Runs -/

/-- What a price-time book answers to the calls, and the book after them. -/
def meant (calls : List BookCall) : List PriceTime.Answer × PriceTime.Book UInt64 Nat :=
  Simulation.trace PriceTime.Book.next .empty (calls.map BookCall.meaning)

theorem meant_snoc (calls : List BookCall) (call : BookCall) :
    (meant (calls ++ [call])).2 = ((meant calls).2.next call.meaning).2 := by
  rw [meant, List.map_append, List.map_singleton, Simulation.trace_snoc]
  rfl

/-- Before each call fewer orders are open than there are slots. -/
def LeavesRoom (calls : List BookCall) : Prop :=
  ∀ pre call, pre ++ [call] <+: calls →
    (meant pre).2.orders.length < FlatOrderMap.kDefaultCapacity.toNat

theorem leavesRoom_of_length {calls : List BookCall}
    (h : calls.length ≤ FlatOrderMap.kDefaultCapacity.toNat) : LeavesRoom calls := by
  have hopen : ∀ pre, (meant pre).2.orders.length ≤ pre.length := by
    intro pre
    induction pre using List.reverseRecOn with
    | nil => exact Nat.le_refl 0
    | append_singleton pre call ih =>
        have hone := (meant pre).2.length_next_le call.meaning
        rw [meant_snoc, List.length_append, List.length_singleton]
        omega
  intro pre call hpre
  have hlen := hpre.length_le
  rw [List.length_append, List.length_singleton] at hlen
  have hle := hopen pre
  omega

theorem exec_eq_answers (instrumentId : UInt32) (calls : List BookCall) :
    (exec instrumentId calls).map Prod.fst =
      (Simulation.answers (fun b call => BookCall.run b call) (new instrumentId) calls).map
        Prod.snd := by
  rw [exec]
  generalize OrderBook.new instrumentId = b
  generalize ([] : Ledger) = ledger
  induction calls generalizing b ledger with
  | nil => rfl
  | cons call calls ih =>
      rw [Runs.exec, Simulation.answers, OrderBook.step]
      cases call.run b with
      | none => rfl
      | some r =>
          rw [Option.map_some, Option.bind_some, Option.bind_some, ih, Option.map_map]
          rfl

end OrderBook

end UltraHft.MarketData
