import UltraHft.Lib.Runs
import UltraHft.MarketData.OrderBook
import UltraHft.MarketData.Proofs.PriceLevel

/-!
# Calls, answers and the ledger they add up to

The ledger is what an observer of the calls and their answers would write down:
the orders that were added and neither cancelled nor filled since, oldest
first.  Should an id occur twice, an answer about it is taken to be about the
later order.
-/

namespace UltraHft.MarketData

open UltraHft.Lib

inductive BookCall where
  | add (order : Option Order)
  | cancel (orderId : UInt64)
  | execute (orderId : UInt64) (executionQty : UInt32)
  deriving DecidableEq

inductive Answer where
  | added (ok : Bool)
  | cancelled (ok : Bool)
  | executed (qty : UInt32)
  deriving DecidableEq

def BookCall.run (b : OrderBook) : BookCall → Option (Answer × OrderBook)
  | add order => (b.addOrder order).map (Prod.map .added id)
  | cancel orderId => (b.cancelOrder orderId).map (Prod.map .cancelled id)
  | execute orderId qty => (b.executeOrder orderId qty).map (Prod.map .executed id)

/-- Orders without their links, oldest first. -/
abbrev Ledger := List Order

namespace Ledger

/-- Amend the first order of that id; `none` strikes it out. -/
def amend (id : UInt64) (f : Order → Option Order) : List Order → List Order
  | [] => []
  | o :: l => if o.orderId = id then (f o).toList ++ l else o :: amend id f l

def amendLatest (id : UInt64) (f : Order → Option Order) (l : Ledger) : Ledger :=
  (amend id f l.reverse).reverse

/-- An order of which `qty` was executed; nothing is left of a filled one. -/
def fill (qty : UInt32) (o : Order) : Option Order :=
  if o.remainingQty - qty = 0 then none
  else some { o with remainingQty := o.remainingQty - qty }

def record (l : Ledger) : BookCall → Answer → Ledger
  | .add (some order), .added true => l ++ [order.unlinked]
  | .cancel id, .cancelled true => l.amendLatest id fun _ => none
  | .execute id _, .executed qty => if qty = 0 then l else l.amendLatest id (fill qty)
  | _, _ => l

def ids (l : Ledger) : List UInt64 := l.map Order.orderId

section Amend

variable {id : UInt64} {f : Order → Option Order} {l l₁ l₂ : List Order} {o : Order}

theorem amend_append_cons (h₁ : ∀ x ∈ l₁, x.orderId ≠ id) (ho : o.orderId = id) :
    amend id f (l₁ ++ o :: l₂) = l₁ ++ (f o).toList ++ l₂ := by
  induction l₁ with
  | nil => simp [amend, ho]
  | cons x l ih =>
      have hx := h₁ x List.mem_cons_self
      rw [List.cons_append, amend, if_neg hx,
        ih fun y hy => h₁ y (List.mem_cons_of_mem x hy)]
      rfl

theorem amendLatest_append_cons (h₂ : ∀ x ∈ l₂, x.orderId ≠ id) (ho : o.orderId = id) :
    amendLatest id f (l₁ ++ o :: l₂) = l₁ ++ (f o).toList ++ l₂ := by
  have hrev : (l₁ ++ o :: l₂).reverse = l₂.reverse ++ o :: l₁.reverse := by simp
  have hto : (f o).toList.reverse = (f o).toList := by cases f o <;> rfl
  rw [amendLatest, hrev, amend_append_cons (by simpa using h₂) ho]
  simp [hto]

theorem amend_ids (l : List Order) (hf : ∀ o o', f o = some o' → o'.orderId = o.orderId) :
    List.Sublist ((amend id f l).map Order.orderId) (l.map Order.orderId) := by
  induction l with
  | nil => exact List.Sublist.refl _
  | cons o l ih =>
      unfold amend
      split_ifs with ho
      · cases hfo : f o with
        | none => exact List.sublist_cons_self _ _
        | some o' => simp [hf o o' hfo]
      · simpa using ih

theorem amendLatest_ids (hf : ∀ o o', f o = some o' → o'.orderId = o.orderId) :
    List.Sublist (ids (amendLatest id f l)) (ids l) := by
  have hsub : List.Sublist ((amend id f l.reverse).map Order.orderId)
      (l.reverse.map Order.orderId) := amend_ids l.reverse hf
  have hrev := hsub.reverse
  rw [List.map_reverse, List.reverse_reverse] at hrev
  rwa [ids, ids, amendLatest, List.map_reverse]

theorem fill_orderId {qty : UInt32} {o o' : Order} (h : fill qty o = some o') :
    o'.orderId = o.orderId := by
  unfold fill at h
  split_ifs at h
  rw [← Option.some.inj h]

end Amend

end Ledger

namespace OrderBook

/-- The book together with the ledger of the answers it has given. -/
abbrev Recorded := OrderBook × Ledger

def step (s : Recorded) (call : BookCall) : Option Recorded :=
  (call.run s.1).map fun r => (r.2, s.2.record call r.1)

def exec (instrumentId : UInt32) (calls : List BookCall) : Option Recorded :=
  Runs.exec step (new instrumentId, []) calls

theorem step_eq_some {b : OrderBook} {ledger : Ledger} {call : BookCall} {answer : Answer}
    {b' : OrderBook} (h : call.run b = some (answer, b')) :
    step (b, ledger) call = some (b', ledger.record call answer) := by
  rw [step, h]
  rfl

end OrderBook

end UltraHft.MarketData
