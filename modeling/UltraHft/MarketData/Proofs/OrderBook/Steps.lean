import UltraHft.MarketData.Proofs.OrderBook.Coherent

/-!
# What one call does to a coherent book

`Progress` collects it for the calls that relocate no order: the book stays
coherent, the ledger follows, and the index gains or loses at most the key of
the call.
-/

namespace UltraHft.MarketData

open UltraHft.Lib

def FlatOrderMap.keys (m : FlatOrderMap) (p : Nat) : Option UInt64 :=
  (m.cells p).map Slot.key

namespace FlatOrderMap

variable {m : FlatOrderMap} {p j : Nat} {key : UInt64}

theorem keys_eq_some : m.keys p = some key ↔
    (m.slots p).occupied = true ∧ (m.slots p).key = key := by
  simp [keys, cells_eq_some]

theorem keys_eq_none : m.keys p = none ↔ (m.slots p).occupied = false := by
  simp [keys, cells_eq_none]

theorem keys_withHeap (m : FlatOrderMap) (h : Heap) : (m.withHeap h).keys = m.keys := by
  ext1 p
  unfold keys
  rw [OrderBook.cells_withHeap]
  cases m.cells p <;> rfl

theorem keys_vacated (m m' : FlatOrderMap) (j : Nat) (h : m'.cells = m.vacated j) :
    m'.keys = Function.update m.keys j none := by
  ext1 p
  unfold keys
  rw [h]
  by_cases hp : p = j
  · simp [hp, vacated]
  · simp [vacated, Function.update_of_ne hp]

theorem keys_filled {o : Order} :
    (m.filled j o).keys = Function.update m.keys j (some o.orderId) := by
  ext1 p
  unfold keys
  rw [cells_filled]
  by_cases hp : p = j
  · simp [hp]
  · simp [Function.update_of_ne hp]

end FlatOrderMap

namespace OrderBook

def found (b : OrderBook) (id : UInt64) : Bool := (b.orders_.find id).join.isSome

def Answers (b : OrderBook) : BookCall → Answer → Prop
  | .add none, answer => answer = .added false
  | .add (some order), answer => answer = .added (!b.found order.orderId)
  | .cancel id, answer => answer = .cancelled (b.found id)
  | .execute _ _, answer => ∃ qty, answer = .executed qty

structure Progress (b : OrderBook) (ptrs : List Nat) (call : BookCall) (answer : Answer)
    (b' : OrderBook) (ptrs' : List Nat) : Prop where
  coherent : Coherent b' ptrs'
  ledger : b'.entries ptrs' = (b.entries ptrs).record call answer
  capacity : b'.orders_.capacity_ = b.orders_.capacity_
  mask : b'.orders_.mask_ = b.orders_.mask_
  keys : b'.orders_.keys = b.orders_.keys ∨
    (∃ o j, call = .add (some o) ∧ b.orders_.probe o.orderId = some j ∧
      (b.orders_.slots j).occupied = false ∧
      b'.orders_.keys = Function.update b.orders_.keys j (some o.orderId)) ∨
    ∃ j, b.removed call = some j ∧
      b'.orders_.keys = Function.update b.orders_.keys j none

/-- The call returns, with the answer that the index gives; unless it relocates
an order it makes progress, and otherwise it breaks the levels. -/
def Steps (b : OrderBook) (ptrs : List Nat) (call : BookCall) : Prop :=
  ∃ answer b', call.run b = some (answer, b') ∧ Answers b call answer ∧
    (¬ b.Relocating call → ∃ ptrs', Progress b ptrs call answer b' ptrs') ∧
    (b.Relocating call → ∀ ledger, ¬ InOrder b' ledger)

section Found

variable {b : OrderBook} {id : UInt64} {j : Nat}

theorem found_of_free (hj : b.orders_.probe id = some j)
    (hfree : (b.orders_.slots j).occupied = false) : b.found id = false := by
  simp [found, FlatOrderMap.find_of_free hj hfree]

theorem found_of_occupied (hj : b.orders_.probe id = some j)
    (hocc : (b.orders_.slots j).occupied = true) : b.found id = true := by
  simp [found, FlatOrderMap.find_of_occupied hj hocc]

theorem removed_cancel (hj : b.orders_.probe id = some j)
    (hocc : (b.orders_.slots j).occupied = true) : b.removed (.cancel id) = some j := by
  simp [removed, FlatOrderMap.find_of_occupied hj hocc]

theorem removed_execute (hj : b.orders_.probe id = some j)
    (hocc : (b.orders_.slots j).occupied = true) (qty : UInt32) :
    b.removed (.execute id qty) =
      if (b.heap j).remainingQty ≠ 0 ∧ (b.heap j).remainingQty ≤ qty then some j else none := by
  simp [removed, FlatOrderMap.find_of_occupied hj hocc, Option.filter]

theorem removed_cancel_free (hj : b.orders_.probe id = some j)
    (hfree : (b.orders_.slots j).occupied = false) : b.removed (.cancel id) = none := by
  simp [removed, FlatOrderMap.find_of_free hj hfree]

theorem removed_execute_free (hj : b.orders_.probe id = some j)
    (hfree : (b.orders_.slots j).occupied = false) (qty : UInt32) :
    b.removed (.execute id qty) = none := by
  simp [removed, FlatOrderMap.find_of_free hj hfree]

theorem relocating_iff {call : BookCall} (h : b.removed call = some j) :
    b.Relocating call ↔ OpenAddressing.Relocates b.orders_.capacity_ b.orders_.home
      b.orders_.cells j := by
  simp [Relocating, h]

theorem not_relocating {call : BookCall} (h : b.removed call = none) :
    ¬ b.Relocating call := by
  simp [Relocating, h]

end Found

namespace Coherent

variable {b : OrderBook} {ptrs l₁ l₂ : List Nat} {id : UInt64} {j : Nat}

theorem entries_split : b.entries (l₁ ++ j :: l₂) =
    b.entries l₁ ++ (b.heap j).unlinked :: b.entries l₂ :=
  entries_append

theorem steps_kept (h : Coherent b ptrs) {call : BookCall} (answer : Answer)
    (hrun : call.run b = some (answer, b)) (hans : Answers b call answer)
    (hrem : b.removed call = none)
    (hrec : (b.entries ptrs).record call answer = b.entries ptrs) : Steps b ptrs call :=
  ⟨answer, b, hrun, hans, fun _ => ⟨ptrs, h, hrec.symm, rfl, rfl, .inl rfl⟩,
    fun hrel => (not_relocating hrem hrel).elim⟩

theorem steps_add (h : Coherent b ptrs) (hroom : ptrs.length < b.orders_.capacity_)
    (order : Option Order) : Steps b ptrs (.add order) := by
  cases order with
  | none => exact h.steps_kept (.added false) rfl rfl rfl rfl
  | some o =>
      obtain ⟨j, hj⟩ := h.arrivals.probe_returns hroom o.orderId
      cases hocc : (b.orders_.slots j).occupied with
      | true =>
          refine h.steps_kept (.added false) ?_ ?_ rfl rfl
          · simp [BookCall.run, addOrder_duplicate hj hocc rfl]
          · simp [Answers, found_of_occupied hj hocc]
      | false =>
          obtain ⟨b', hp, hadd, hcoh, hent, horders⟩ := h.addOrder_new hroom hj hocc
          refine ⟨.added true, b', by simp [BookCall.run, hadd], ?_, ?_, ?_⟩
          · simp [Answers, found_of_free hj hocc]
          · intro _
            refine ⟨ptrs ++ [j], hcoh, hent, ?_, ?_, .inr (.inl ⟨o, j, rfl, hj, hocc, ?_⟩)⟩
            · rw [horders]
              rfl
            · rw [horders]
              rfl
            · rw [horders, FlatOrderMap.keys_withHeap, FlatOrderMap.keys_filled]
          · intro hrel
            exact (not_relocating rfl hrel).elim

theorem steps_cancel (h : Coherent b ptrs) (hroom : ptrs.length < b.orders_.capacity_)
    (id : UInt64) : Steps b ptrs (.cancel id) := by
  obtain ⟨j, hj⟩ := h.arrivals.probe_returns hroom id
  cases hocc : (b.orders_.slots j).occupied with
  | false =>
      refine h.steps_kept (.cancelled false) ?_ ?_ (removed_cancel_free hj hocc) rfl
      · simp [BookCall.run, cancelOrder_absent hj hocc]
      · simp [Answers, found_of_free hj hocc]
  | true =>
      obtain ⟨l₁, l₂, rfl, hid, hlater⟩ := h.latest hj hocc
      have hrem := removed_cancel hj hocc
      have hans : Answers b (.cancel id) (.cancelled true) := by
        simp [Answers, found_of_occupied hj hocc]
      by_cases hrel : b.Relocating (.cancel id)
      · obtain ⟨b', hcan, hbroken⟩ := h.cancelOrder_moved hroom hj ((relocating_iff hrem).mp hrel)
        exact ⟨.cancelled true, b', by simp [BookCall.run, hcan], hans,
          fun hno => (hno hrel).elim, fun _ => hbroken⟩
      · obtain ⟨b', hp, hcan, hcoh, hent, hcap, hmask, hcells⟩ := h.cancelOrder_still hroom hj
          fun hmove => hrel ((relocating_iff hrem).mpr hmove)
        refine ⟨.cancelled true, b', by simp [BookCall.run, hcan], hans, ?_,
          fun hmove => (hrel hmove).elim⟩
        intro _
        refine ⟨l₁ ++ l₂, hcoh, ?_, hcap, hmask, .inr (.inr ⟨j, hrem, ?_⟩)⟩
        · rw [hent, entries_split, Ledger.record, Ledger.amendLatest_append_cons hlater hid]
          simp
        · rw [FlatOrderMap.keys_vacated _ _ j hcells, FlatOrderMap.keys_withHeap]

theorem steps_execute_part (h : Coherent b (l₁ ++ j :: l₂)) {qty : UInt32}
    (hj : b.orders_.probe id = some j) (hid : (b.heap j).unlinked.orderId = id)
    (hlater : ∀ o ∈ b.entries l₂, o.orderId ≠ id)
    (hpos : (b.heap j).remainingQty ≠ 0) (hpart : ¬ (b.heap j).remainingQty ≤ qty) :
    Steps b (l₁ ++ j :: l₂) (.execute id qty) := by
  have hocc := h.arrivals.probe_erased.2
  have hle : ¬ qty > (b.heap j).remainingQty := fun hgt => hpart (UInt32.le_of_lt hgt)
  have hleft : (b.heap j).remainingQty - qty ≠ 0 := by
    have hiff := left_eq_zero_iff (b.heap j).remainingQty qty
    rw [if_neg hle] at hiff
    exact fun hzero => hpart (hiff.mp hzero)
  have hrun := executeOrder_found hj hocc hpos (if_neg hle)
  rw [if_neg hleft] at hrun
  have hrem : b.removed (.execute id qty) = none := by
    rw [removed_execute hj hocc, if_neg fun hfull => hpart hfull.2]
  refine ⟨.executed qty, b.reduced j ((b.heap j).remainingQty - qty),
    by simp only [BookCall.run, hrun]; rfl, ⟨qty, rfl⟩, ?_,
    fun hrel => (not_relocating hrem hrel).elim⟩
  intro _
  refine ⟨l₁ ++ j :: l₂, h.reduced_coherent j _, ?_, rfl, rfl,
    .inl (FlatOrderMap.keys_withHeap ..)⟩
  rw [h.reduced_entries, entries_split, Ledger.record]
  by_cases hzero : qty = 0
  · subst hzero
    simp [Order.unlinked]
  · rw [if_neg hzero, Ledger.amendLatest_append_cons hlater hid]
    have hfill : Ledger.fill qty (b.heap j).unlinked =
        some { (b.heap j).unlinked with remainingQty := (b.heap j).remainingQty - qty } :=
      if_neg hleft
    rw [hfill]
    simp

theorem reduced_keys (left : UInt32) : (b.reduced j left).orders_.keys = b.orders_.keys :=
  FlatOrderMap.keys_withHeap ..

theorem steps_execute_full (h : Coherent b (l₁ ++ j :: l₂))
    (hroom : (l₁ ++ j :: l₂).length < b.orders_.capacity_) {qty : UInt32}
    (hj : b.orders_.probe id = some j) (hid : (b.heap j).unlinked.orderId = id)
    (hlater : ∀ o ∈ b.entries l₂, o.orderId ≠ id)
    (hpos : (b.heap j).remainingQty ≠ 0) (hfull : (b.heap j).remainingQty ≤ qty) :
    Steps b (l₁ ++ j :: l₂) (.execute id qty) := by
  have hocc := h.arrivals.probe_erased.2
  obtain ⟨executed, hex⟩ : ∃ e, (if qty > (b.heap j).remainingQty then
      (b.heap j).remainingQty else qty) = e := ⟨_, rfl⟩
  have hleft : (b.heap j).remainingQty - executed = 0 := by
    rw [← hex]
    exact (left_eq_zero_iff _ qty).mpr hfull
  have hsome : executed ≠ 0 := by
    rintro rfl
    rw [UInt32.sub_zero] at hleft
    exact hpos hleft
  have hrun := executeOrder_found hj hocc hpos hex
  rw [if_pos hleft] at hrun
  have hrem : b.removed (.execute id qty) = some j := by
    rw [removed_execute hj hocc, if_pos ⟨hpos, hfull⟩]
  -- the book handed to `cancelOrder` differs from `b` in one quantity
  have hmid := h.reduced_coherent j ((b.heap j).remainingQty - executed)
  have hmove := relocates_withHeap (h := b.heap.setRemainingQty j
    ((b.heap j).remainingQty - executed)) b.orders_ j
  by_cases hrel : b.Relocating (.execute id qty)
  · obtain ⟨b', hcan, hbroken⟩ := hmid.cancelOrder_moved hroom hj
      (hmove.mpr ((relocating_iff hrem).mp hrel))
    rw [hcan] at hrun
    exact ⟨.executed executed, b', by simp only [BookCall.run, hrun]; rfl, ⟨executed, rfl⟩,
      fun hno => (hno hrel).elim, fun _ => hbroken⟩
  · obtain ⟨b', hp, hcan, hcoh, hent, hcap, hmask, hcells⟩ := hmid.cancelOrder_still hroom hj
      fun hm => hrel ((relocating_iff hrem).mpr (hmove.mp hm))
    rw [hcan] at hrun
    refine ⟨.executed executed, b', by simp only [BookCall.run, hrun]; rfl, ⟨executed, rfl⟩, ?_,
      fun hm => (hrel hm).elim⟩
    intro _
    refine ⟨l₁ ++ l₂, hcoh, ?_, hcap, hmask, .inr (.inr ⟨j, hrem, ?_⟩)⟩
    · have hsame : (b.reduced j ((b.heap j).remainingQty - executed)).entries l₁ ++
          (b.reduced j ((b.heap j).remainingQty - executed)).entries l₂ =
          b.entries l₁ ++ b.entries l₂ := by
        rw [← entries_append, ← entries_append]
        apply entries_congr
        intro q hq
        rw [h.reduced_rest _ hq]
      have hfill : Ledger.fill executed (b.heap j).unlinked = none := if_pos hleft
      rw [hent, hsame, entries_split, Ledger.record, if_neg hsome,
        Ledger.amendLatest_append_cons hlater hid, hfill]
      simp
    · rw [FlatOrderMap.keys_vacated _ _ j hcells, FlatOrderMap.keys_withHeap, reduced_keys]

theorem steps_execute (h : Coherent b ptrs) (hroom : ptrs.length < b.orders_.capacity_)
    (id : UInt64) (qty : UInt32) : Steps b ptrs (.execute id qty) := by
  obtain ⟨j, hj⟩ := h.arrivals.probe_returns hroom id
  cases hocc : (b.orders_.slots j).occupied with
  | false =>
      refine h.steps_kept (.executed 0) ?_ ⟨0, rfl⟩ (removed_execute_free hj hocc qty) rfl
      simp [BookCall.run, executeOrder_absent hj hocc]
  | true =>
      obtain ⟨l₁, l₂, rfl, hid, hlater⟩ := h.latest hj hocc
      by_cases hpos : (b.heap j).remainingQty = 0
      · refine h.steps_kept (.executed 0) ?_ ⟨0, rfl⟩ ?_ rfl
        · simp [BookCall.run, executeOrder_spent hj hocc hpos]
        · rw [removed_execute hj hocc, if_neg fun hfull => hfull.1 hpos]
      · by_cases hfull : (b.heap j).remainingQty ≤ qty
        · exact h.steps_execute_full hroom hj hid hlater hpos hfull
        · exact h.steps_execute_part hj hid hlater hpos hfull

/-- Every call on a coherent book with a free slot returns; it makes progress
unless it relocates an order. -/
theorem steps (h : Coherent b ptrs) (hroom : ptrs.length < b.orders_.capacity_)
    (call : BookCall) : Steps b ptrs call := by
  cases call with
  | add order => exact h.steps_add hroom order
  | cancel id => exact h.steps_cancel hroom id
  | execute id qty => exact h.steps_execute hroom id qty

end Coherent

end OrderBook

end UltraHft.MarketData
