import UltraHft.Lib.DoublyLinked
import UltraHft.MarketData.PriceLevel

/-!
# Price levels as linked lists

`addOrder` and `removeOrder` on a level that is linked through the heap, and
what they leave alone: every order outside the level, and of the orders in it
everything but the links.
-/

namespace UltraHft.MarketData

open UltraHft.Lib
open UltraHft.Lib.DoublyLinked (Linked)

def Order.unlinked (o : Order) : Order := { o with next := none, prev := none }

namespace Heap

def nexts (h : Heap) : Nat → Ptr := fun i => (h i).next

def prevs (h : Heap) : Nat → Ptr := fun i => (h i).prev

def SameOrders (h h' : Heap) : Prop := ∀ i, (h' i).unlinked = (h i).unlinked

section Update

variable (h : Heap) (p : Nat) (q : Ptr) {i : Nat}

@[simp] theorem nexts_setNext :
    (h.setNext p q).nexts = Function.update h.nexts p q := by
  ext1 i
  by_cases hi : i = p
  · subst hi
    simp [nexts, setNext]
  · simp [nexts, setNext, hi]

@[simp] theorem prevs_setNext : (h.setNext p q).prevs = h.prevs := by
  ext1 i
  by_cases hi : i = p <;> simp [prevs, setNext, hi]

@[simp] theorem nexts_setPrev : (h.setPrev p q).nexts = h.nexts := by
  ext1 i
  by_cases hi : i = p <;> simp [nexts, setPrev, hi]

@[simp] theorem prevs_setPrev :
    (h.setPrev p q).prevs = Function.update h.prevs p q := by
  ext1 i
  by_cases hi : i = p
  · subst hi
    simp [prevs, setPrev]
  · simp [prevs, setPrev, hi]

theorem setNext_of_ne (hi : i ≠ p) : h.setNext p q i = h i := if_neg hi

theorem setPrev_of_ne (hi : i ≠ p) : h.setPrev p q i = h i := if_neg hi

theorem sameOrders_setNext : SameOrders h (h.setNext p q) := by
  intro i
  unfold setNext
  split_ifs <;> rfl

theorem sameOrders_setPrev : SameOrders h (h.setPrev p q) := by
  intro i
  unfold setPrev
  split_ifs <;> rfl

end Update

theorem SameOrders.refl (h : Heap) : SameOrders h h := fun _ => rfl

theorem SameOrders.trans {h₁ h₂ h₃ : Heap} (h : SameOrders h₁ h₂)
    (h' : SameOrders h₂ h₃) : SameOrders h₁ h₃ :=
  fun i => (h' i).trans (h i)

end Heap

namespace PriceLevel

def Links (lv : PriceLevel) (h : Heap) (l : List Nat) : Prop :=
  Linked h.nexts h.prevs lv.head_ l lv.tail_

variable {lv : PriceLevel} {h h' : Heap} {l l₁ l₂ : List Nat} {order i : Nat}

theorem Links.congr (hl : lv.Links h l)
    (hsame : ∀ i ∈ l, (h' i).next = (h i).next ∧ (h' i).prev = (h i).prev) :
    lv.Links h' l :=
  Linked.congr hl hsame

theorem make_links (price : UInt64) (h : Heap) : (make price).Links h [] :=
  ⟨rfl, rfl, trivial⟩

/-! ## `addOrder` -/

@[simp] theorem addOrder_price : (lv.addOrder h order).1.price_ = lv.price_ := by
  unfold addOrder
  cases lv.head_ <;> rfl

theorem Links.addOrder (hl : lv.Links h l) (hnd : l.Nodup) (ho : order ∉ l) :
    (lv.addOrder h order).1.Links (lv.addOrder h order).2 (l ++ [order]) := by
  unfold PriceLevel.addOrder Links
  cases hhead : lv.head_ with
  | none =>
      obtain rfl := hl.head_eq_none.mp hhead
      simp only [Heap.nexts_setPrev, Heap.nexts_setNext, Heap.prevs_setPrev,
        Heap.prevs_setNext]
      exact Linked.push_first h.nexts h.prevs order
  | some a =>
      have hne : l ≠ [] := by
        intro hnil
        rw [hl.head_eq_none.mpr hnil] at hhead
        cases hhead
      obtain ⟨t, ht⟩ : ∃ t, lv.tail_ = some t :=
        ⟨l.getLast hne, hl.tail_eq.trans (List.getLast?_eq_some_getLast hne)⟩
      have hl' : Linked h.nexts h.prevs (some a) l (some t) := by
        rw [← ht, ← hhead]
        exact hl
      simp only [ht, Heap.nexts_setNext, Heap.nexts_setPrev, Heap.prevs_setNext,
        Heap.prevs_setPrev]
      exact hl'.push_back hnd ho

theorem addOrder_frame (hl : lv.Links h l) (hi : i ∉ l) (hio : i ≠ order) :
    (lv.addOrder h order).2 i = h i := by
  unfold PriceLevel.addOrder
  cases hhead : lv.head_ with
  | none => simp [Heap.setPrev_of_ne, Heap.setNext_of_ne, hio]
  | some a =>
      cases ht : lv.tail_ with
      | none => simp [Heap.setPrev_of_ne, Heap.setNext_of_ne, hio]
      | some t =>
          have hit : i ≠ t := by
            rintro rfl
            exact hi (List.mem_of_getLast? (hl.tail_eq.symm.trans ht))
          simp [Heap.setPrev_of_ne, Heap.setNext_of_ne, hio, hit]

theorem addOrder_sameOrders : Heap.SameOrders h (lv.addOrder h order).2 := by
  have hpair : ∀ (h : Heap) (q : Ptr), Heap.SameOrders h ((h.setPrev order q).setNext order none) :=
    fun h q => (h.sameOrders_setPrev order q).trans (Heap.sameOrders_setNext _ order none)
  unfold PriceLevel.addOrder
  cases lv.head_ with
  | none => exact (h.sameOrders_setNext order none).trans (Heap.sameOrders_setPrev _ order none)
  | some a =>
      cases lv.tail_ with
      | none => exact hpair h none
      | some t => exact (h.sameOrders_setNext t (some order)).trans (hpair _ (some t))

/-! ## `removeOrder` -/

@[simp] theorem removeOrder_price : (lv.removeOrder h order).1.price_ = lv.price_ := by
  unfold removeOrder bypassNext bypassPrev
  cases (h order).prev <;> dsimp only <;> split <;> rfl

theorem bypassNext_eq : lv.bypassNext h order =
    (if (h.prevs order).isSome then lv else { lv with head_ := h.nexts order },
      match h.prevs order with
      | some p => h.setNext p (h.nexts order)
      | none => h) := by
  unfold bypassNext Heap.prevs Heap.nexts
  cases (h order).prev <;> rfl

theorem bypassPrev_eq : lv.bypassPrev h order =
    (if (h.nexts order).isSome then lv else { lv with tail_ := h.prevs order },
      match h.nexts order with
      | some q => h.setPrev q (h.prevs order)
      | none => h) := by
  unfold bypassPrev Heap.prevs Heap.nexts
  cases (h order).next <;> rfl

/-- Links after the first half; an order is not its own predecessor, so its
own links are as before. -/
theorem bypassNext_links (lv : PriceLevel) (hp : h.prevs order ≠ some order) :
    (lv.bypassNext h order).2.nexts = DoublyLinked.unlinkNext h.nexts h.prevs order ∧
      (lv.bypassNext h order).2.prevs = h.prevs ∧
      (lv.bypassNext h order).2.nexts order = h.nexts order := by
  rw [bypassNext_eq]
  unfold DoublyLinked.unlinkNext
  cases hprev : h.prevs order with
  | none => exact ⟨rfl, rfl, rfl⟩
  | some p =>
      have hne : order ≠ p := by
        rintro rfl
        exact hp hprev
      simp [Function.update_of_ne hne]

theorem bypassPrev_links (lv : PriceLevel) (h : Heap) (order : Nat) :
    (lv.bypassPrev h order).2.prevs = DoublyLinked.unlinkPrev h.nexts h.prevs order ∧
      (lv.bypassPrev h order).2.nexts = h.nexts := by
  rw [bypassPrev_eq]
  unfold DoublyLinked.unlinkPrev
  cases hnext : h.nexts order with
  | none => exact ⟨rfl, rfl⟩
  | some q => simp

theorem bypassNext_self (lv : PriceLevel) (h : Heap) (order : Nat) :
    (lv.bypassNext h order).2 order = h order := by
  unfold bypassNext
  cases (h order).prev with
  | none => rfl
  | some p =>
      by_cases hp : order = p
      · simp [Heap.setNext, ← hp]
      · exact h.setNext_of_ne p _ hp

theorem removeOrder_head (lv : PriceLevel) (h : Heap) (order : Nat) :
    (lv.removeOrder h order).1.head_ =
      if (h order).prev.isSome then lv.head_ else (h order).next := by
  unfold removeOrder
  dsimp only
  rw [bypassPrev_eq, apply_ite head_, ite_self]
  unfold bypassNext
  cases (h order).prev <;> rfl

theorem removeOrder_tail (lv : PriceLevel) (h : Heap) (order : Nat) :
    (lv.removeOrder h order).1.tail_ =
      if (h order).next.isSome then lv.tail_ else (h order).prev := by
  unfold removeOrder bypassPrev
  dsimp only
  rw [bypassNext_self]
  cases hnext : (h order).next with
  | none => rfl
  | some next => unfold bypassNext; cases (h order).prev <;> rfl

/-- The orders before and after the removed one are linked to each other. -/
theorem Links.removeOrder (hl : lv.Links h (l₁ ++ order :: l₂))
    (hnd : (l₁ ++ order :: l₂).Nodup) :
    (lv.removeOrder h order).1.Links (lv.removeOrder h order).2 (l₁ ++ l₂) := by
  have hout : order ∉ l₁ ++ l₂ := (List.nodup_middle.mp hnd).notMem
  obtain ⟨-, hprev, hnext, -⟩ := DoublyLinked.seg_append.mp hl.seg
  rw [Option.or_none] at hprev hnext
  have hp : h.prevs order ≠ some order := by
    rw [hprev]
    intro hlast
    exact hout (List.mem_append_left _ (List.mem_of_getLast? hlast))
  obtain ⟨hnexts, hprevs, hkeep⟩ := bypassNext_links lv hp
  obtain ⟨hprevs', hnexts'⟩ := bypassPrev_links (lv.bypassNext h order).1
    (lv.bypassNext h order).2 order
  have hunlink := Linked.unlink hl hnd
  unfold Links PriceLevel.removeOrder
  dsimp only
  rw [hnexts', hprevs', hnexts, hprevs]
  have hpv : DoublyLinked.unlinkPrev (DoublyLinked.unlinkNext h.nexts h.prevs order) h.prevs
      order = DoublyLinked.unlinkPrev h.nexts h.prevs order := by
    unfold DoublyLinked.unlinkPrev
    rw [← hnexts, hkeep]
  have hhead := lv.removeOrder_head h order
  have htail := lv.removeOrder_tail h order
  unfold PriceLevel.removeOrder at hhead htail
  dsimp only at hhead htail
  rw [hpv, hhead, htail]
  exact hunlink

theorem bypassNext_frame (hi : h.prevs order ≠ some i) :
    (lv.bypassNext h order).2 i = h i := by
  rw [bypassNext_eq]
  cases hp : h.prevs order with
  | none => rfl
  | some p =>
      apply Heap.setNext_of_ne
      rintro rfl
      exact hi hp

theorem bypassPrev_frame (hi : h.nexts order ≠ some i) :
    (lv.bypassPrev h order).2 i = h i := by
  rw [bypassPrev_eq]
  cases hn : h.nexts order with
  | none => rfl
  | some q =>
      apply Heap.setPrev_of_ne
      rintro rfl
      exact hi hn

theorem removeOrder_frame (hl : lv.Links h (l₁ ++ order :: l₂))
    (hnd : (l₁ ++ order :: l₂).Nodup) (hi : i ∉ l₁ ++ l₂) :
    (lv.removeOrder h order).2 i = h i := by
  have hout : order ∉ l₁ ++ l₂ := (List.nodup_middle.mp hnd).notMem
  obtain ⟨-, hprev, hnext, -⟩ := DoublyLinked.seg_append.mp hl.seg
  rw [Option.or_none] at hprev hnext
  have hmem₁ : ∀ j, h.prevs order = some j → j ∈ l₁ ++ l₂ := by
    intro j hj
    exact List.mem_append_left _ (List.mem_of_getLast? (hprev.symm.trans hj))
  have hmem₂ : ∀ j, h.nexts order = some j → j ∈ l₁ ++ l₂ := by
    intro j hj
    exact List.mem_append_right _ (List.mem_of_head? (hnext.symm.trans hj))
  obtain ⟨-, -, hkeep⟩ := bypassNext_links lv fun hself => hout (hmem₁ order hself)
  unfold PriceLevel.removeOrder
  dsimp only
  rw [bypassPrev_frame, bypassNext_frame]
  · exact fun hj => hi (hmem₁ i hj)
  · rw [hkeep]
    exact fun hj => hi (hmem₂ i hj)

theorem removeOrder_sameOrders : Heap.SameOrders h (lv.removeOrder h order).2 := by
  have hfst : Heap.SameOrders h (lv.bypassNext h order).2 := by
    rw [bypassNext_eq]
    cases h.prevs order with
    | none => exact .refl h
    | some p => exact h.sameOrders_setNext p _
  have hsnd : ∀ (lv : PriceLevel) (h : Heap), Heap.SameOrders h (lv.bypassPrev h order).2 := by
    intro lv h
    rw [bypassPrev_eq]
    cases h.nexts order with
    | none => exact .refl h
    | some q => exact h.sameOrders_setPrev q _
  exact hfst.trans (hsnd _ _)

/-- Removing the order that was added last restores the level and the links of
the other orders. -/
theorem removeOrder_addOrder (hl : lv.Links h l) (ho : order ∉ l) :
    ((lv.addOrder h order).1.removeOrder (lv.addOrder h order).2 order).1 = lv ∧
      ∀ i, i ≠ order →
        ((lv.addOrder h order).1.removeOrder (lv.addOrder h order).2 order).2 i = h i := by
  obtain ⟨price, head, tail⟩ := lv
  cases head with
  | none =>
      obtain rfl := hl.head_eq_none.mp rfl
      obtain rfl : tail = none := hl.tail_eq
      have hnext : ((h.setNext order none).setPrev order none order).next = none := by
        simp [Heap.setNext, Heap.setPrev]
      have hprev : ((h.setNext order none).setPrev order none order).prev = none := by
        simp [Heap.setPrev]
      simp only [PriceLevel.addOrder, removeOrder, bypassNext, bypassPrev, hprev, hnext]
      refine ⟨trivial, fun i hi => ?_⟩
      rw [Heap.setPrev_of_ne _ _ _ hi, Heap.setNext_of_ne _ _ _ hi]
  | some a =>
      have hne : l ≠ [] := by
        rintro rfl
        cases hl.head_eq
      obtain ⟨t, rfl⟩ : ∃ t, tail = some t :=
        ⟨l.getLast hne, hl.tail_eq.trans (List.getLast?_eq_some_getLast hne)⟩
      have hto : order ≠ t := by
        rintro rfl
        exact ho (List.mem_of_getLast? hl.tail_eq.symm)
      have hlast : (h t).next = none := hl.next_tail rfl
      generalize hh : ((h.setNext t (some order)).setPrev order (some t)).setNext order none = h₁
      have hprev : (h₁ order).prev = some t := by simp [← hh, Heap.setNext, Heap.setPrev]
      have hnext : (h₁ order).next = none := by simp [← hh, Heap.setNext]
      have hkept : h₁.setNext t none order = h₁ order := Heap.setNext_of_ne _ _ _ hto
      simp only [PriceLevel.addOrder, hh, removeOrder, bypassNext, hprev, hnext, bypassPrev, hkept]
      refine ⟨trivial, fun i hi => ?_⟩
      by_cases hit : i = t
      · subst hit
        simp [← hh, Heap.setNext, Heap.setPrev, hi, ← hlast]
      · rw [Heap.setNext_of_ne _ _ _ hit, ← hh, Heap.setNext_of_ne _ _ _ hi,
          Heap.setPrev_of_ne _ _ _ hi, Heap.setNext_of_ne _ _ _ hit]

theorem isEmpty_iff (hl : lv.Links h l) : lv.isEmpty = true ↔ l = [] := by
  rw [isEmpty, Option.isNone_iff_eq_none]
  exact hl.head_eq_none

/-! ## The level as a sequence -/

/-- The level is well formed, and its orders are `l`, each of them once. -/
structure WellFormed (lv : PriceLevel) (h : Heap) (l : List Nat) : Prop where
  links : lv.Links h l
  distinct : l.Nodup

theorem WellFormed.addOrder (hl : lv.WellFormed h l) (ho : order ∉ l) :
    (lv.addOrder h order).1.WellFormed (lv.addOrder h order).2 (l ++ [order]) where
  links := hl.links.addOrder hl.distinct ho
  distinct := by
    rw [← List.concat_eq_append]
    exact hl.distinct.concat ho

theorem WellFormed.removeOrder (hl : lv.WellFormed h l) (ho : order ∈ l) :
    (lv.removeOrder h order).1.WellFormed (lv.removeOrder h order).2 (l.erase order) where
  links := by
    obtain ⟨l₁, l₂, -, rfl, herase⟩ := List.exists_erase_eq ho
    rw [herase]
    exact hl.links.removeOrder hl.distinct
  distinct := hl.distinct.erase order

/-- Adding an order appends it to the sequence, and removing a member deletes it
and nothing else; the level is then empty exactly when no order is left. -/
theorem sequence_addOrder_removeOrder (lv : PriceLevel) (h : Heap) (l : List Nat)
    (hl : lv.WellFormed h l) :
    (∀ order, order ∉ l →
      (lv.addOrder h order).1.WellFormed (lv.addOrder h order).2 (l ++ [order])) ∧
    ∀ order, order ∈ l →
      (lv.removeOrder h order).1.WellFormed (lv.removeOrder h order).2 (l.erase order) ∧
      ((lv.removeOrder h order).1.head_ = none ↔ l.erase order = []) := by
  constructor
  · intro order ho
    exact hl.addOrder ho
  · intro order ho
    have hremoved := hl.removeOrder ho
    exact ⟨hremoved, hremoved.links.head_eq_none⟩

/-- Orders 4, 1 and 6 in a level; order 9 is in none, but has links of an earlier one. -/
def staleHeap : Heap
  | 1 => { prev := some 4, next := some 6 }
  | 4 => { next := some 1 }
  | 6 => { prev := some 1 }
  | 9 => { prev := some 6, next := some 1 }
  | _ => {}

theorem sequence_addOrder_removeOrder_three :
    (addOrder ⟨100, some 4, some 6⟩ staleHeap 9).1.WellFormed
      (addOrder ⟨100, some 4, some 6⟩ staleHeap 9).2 [4, 1, 6, 9] ∧
    (removeOrder ⟨100, some 4, some 6⟩ staleHeap 4).1.WellFormed
      (removeOrder ⟨100, some 4, some 6⟩ staleHeap 4).2 [1, 6] ∧
    (removeOrder ⟨100, some 4, some 6⟩ staleHeap 1).1.WellFormed
      (removeOrder ⟨100, some 4, some 6⟩ staleHeap 1).2 [4, 6] ∧
    (removeOrder ⟨100, some 4, some 6⟩ staleHeap 6).1.WellFormed
      (removeOrder ⟨100, some 4, some 6⟩ staleHeap 6).2 [4, 1] := by
  have hl : WellFormed ⟨100, some 4, some 6⟩ staleHeap [4, 1, 6] :=
    ⟨⟨rfl, rfl, rfl, rfl, rfl, rfl, rfl, rfl, trivial⟩, by decide⟩
  obtain ⟨hadd, hremove⟩ :=
    sequence_addOrder_removeOrder ⟨100, some 4, some 6⟩ staleHeap [4, 1, 6] hl
  exact ⟨hadd 9 (by decide), (hremove 4 (by decide)).1, (hremove 1 (by decide)).1,
    (hremove 6 (by decide)).1⟩

end PriceLevel

end UltraHft.MarketData
