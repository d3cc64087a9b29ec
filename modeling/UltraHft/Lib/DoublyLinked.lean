import Mathlib.Data.List.Basic
import Mathlib.Data.List.Nodup
import Mathlib.Logic.Function.Basic

/-!
# Intrusive doubly linked lists

The links are two functions of the node.  `Linked` says which sequence of nodes
a head and a tail describe; pushing at the back and unlinking a member act on
the sequence as they should, and whatever the links of other nodes are they
stay out of it.
-/

namespace UltraHft.Lib.DoublyLinked

variable {α : Type*}

/-- Walking along `next` from `head` visits `l` and ends there. -/
def Walks (next : α → Option α) : Option α → List α → Prop
  | head, [] => head = none
  | head, a :: l => head = some a ∧ Walks next (next a) l

/-- `l` is a stretch of a list, between the nodes `before` and `after`. -/
def Seg (next prev : α → Option α) : Option α → List α → Option α → Prop
  | _, [], _ => True
  | before, a :: l, after =>
      prev a = before ∧ next a = l.head?.or after ∧ Seg next prev (some a) l after

/-- Walking along `next` from `head` visits `l` and ends at `tail`, and `prev`
undoes each step. -/
structure Linked (next prev : α → Option α) (head : Option α) (l : List α)
    (tail : Option α) : Prop where
  head_eq : head = l.head?
  tail_eq : tail = l.getLast?
  seg : Seg next prev none l none

theorem Walks.unique {next : α → Option α} {head : Option α} {l l' : List α}
    (h : Walks next head l) (h' : Walks next head l') : l = l' := by
  induction l generalizing head l' with
  | nil =>
      cases l' with
      | nil => rfl
      | cons b l' => cases h.symm.trans h'.1
  | cons a l ih =>
      cases l' with
      | nil => cases h.1.symm.trans h'
      | cons b l' =>
          obtain rfl : a = b := Option.some.inj (h.1.symm.trans h'.1)
          rw [ih h.2 h'.2]

section Seg

variable {next prev next' prev' : α → Option α} {before after : Option α}
  {l l₁ l₂ : List α} {a : α}

theorem Seg.congr (hs : Seg next prev before l after)
    (hl : ∀ a ∈ l, next' a = next a ∧ prev' a = prev a) :
    Seg next' prev' before l after := by
  induction l generalizing before with
  | nil => trivial
  | cons b l ih =>
      obtain ⟨hprev, hnext, hrest⟩ := hs
      obtain ⟨hn, hp⟩ := hl b List.mem_cons_self
      exact ⟨hp.trans hprev, hn.trans hnext,
        ih hrest fun c hc => hl c (List.mem_cons_of_mem b hc)⟩

theorem seg_append : Seg next prev before (l₁ ++ l₂) after ↔
    Seg next prev before l₁ (l₂.head?.or after) ∧
      Seg next prev (l₁.getLast?.or before) l₂ after := by
  induction l₁ generalizing before with
  | nil => simp [Seg]
  | cons b l ih =>
      have hhead : (l ++ l₂).head?.or after = l.head?.or (l₂.head?.or after) := by
        rw [List.head?_append, Option.or_assoc]
      have hlast : (b :: l).getLast?.or before = l.getLast?.or (some b) := by
        cases l with
        | nil => rfl
        | cons c l =>
            rw [List.getLast?_cons_cons]
            cases h : (c :: l).getLast? with
            | none => simp at h
            | some d => rfl
      simp only [List.cons_append, Seg, ih, hhead, hlast, and_assoc]

theorem Seg.walks (hs : Seg next prev before l none) : Walks next l.head? l := by
  induction l generalizing before with
  | nil => rfl
  | cons a l ih =>
      obtain ⟨-, hnext, hrest⟩ := hs
      rw [Option.or_none] at hnext
      exact ⟨rfl, hnext ▸ ih hrest⟩

theorem Seg.setNext_last [DecidableEq α] (hs : Seg next prev before (l ++ [a]) after)
    (hnd : (l ++ [a]).Nodup) (after' : Option α) :
    Seg (Function.update next a after') prev before (l ++ [a]) after' := by
  rw [seg_append] at hs ⊢
  obtain ⟨hl, ha⟩ := hs
  have hal : a ∉ l := fun hmem =>
    (List.nodup_append.mp hnd).2.2 a hmem a List.mem_cons_self rfl
  constructor
  · apply hl.congr
    intro b hb
    have hba : b ≠ a := by
      rintro rfl
      exact hal hb
    exact ⟨Function.update_of_ne hba .., rfl⟩
  · exact ⟨ha.1, by simp, trivial⟩

theorem Seg.setPrev_head [DecidableEq α] (hs : Seg next prev before (a :: l) after)
    (hnd : (a :: l).Nodup) (before' : Option α) :
    Seg next (Function.update prev a before') before' (a :: l) after := by
  obtain ⟨-, hnext, hrest⟩ := hs
  refine ⟨by simp, hnext, hrest.congr ?_⟩
  intro b hb
  have hba : b ≠ a := by
    rintro rfl
    exact (List.nodup_cons.mp hnd).1 hb
  exact ⟨rfl, Function.update_of_ne hba ..⟩

theorem Seg.next_mem (hs : Seg next prev before l none) {b : α} (ha : a ∈ l)
    (hb : next a = some b) : b ∈ l := by
  obtain ⟨l₁, l₂, rfl⟩ := List.append_of_mem ha
  have hnext := (seg_append.mp hs).2.2.1
  rw [hb, Option.or_none] at hnext
  have hmem := List.mem_of_head? hnext.symm
  simp [hmem]

end Seg

namespace Linked

variable {next prev next' prev' : α → Option α} {head tail : Option α}
  {l l₁ l₂ : List α} {a : α}

theorem congr (hl : Linked next prev head l tail)
    (h : ∀ a ∈ l, next' a = next a ∧ prev' a = prev a) :
    Linked next' prev' head l tail :=
  ⟨hl.head_eq, hl.tail_eq, hl.seg.congr h⟩

theorem walks (hl : Linked next prev head l tail) : Walks next head l := by
  rw [hl.head_eq]
  exact hl.seg.walks

theorem head_mem (hl : Linked next prev head l tail) (ha : head = some a) : a ∈ l :=
  List.mem_of_head? (hl.head_eq.symm.trans ha)

theorem head_eq_none (hl : Linked next prev head l tail) : head = none ↔ l = [] := by
  rw [hl.head_eq, List.head?_eq_none_iff]

theorem next_tail (hl : Linked next prev head l tail) (ha : tail = some a) :
    next a = none := by
  obtain ⟨l₀, rfl⟩ := List.getLast?_eq_some_iff.mp (hl.tail_eq.symm.trans ha)
  exact (seg_append.mp hl.seg).2.2.1

theorem exists_prev (hl : Linked next prev head l tail) (ha : a ∈ l) :
    head = some a ∨ ∃ b ∈ l, next b = some a := by
  obtain ⟨l₁, l₂, rfl⟩ := List.append_of_mem ha
  rcases List.eq_nil_or_concat l₁ with rfl | ⟨l₀, b, rfl⟩
  · exact .inl hl.head_eq
  · have hseg := (seg_append.mp hl.seg).1
    rw [List.concat_eq_append, seg_append] at hseg
    exact .inr ⟨b, by simp, hseg.2.2.1⟩

variable [DecidableEq α]

theorem push_first (next prev : α → Option α) (a : α) :
    Linked (Function.update next a none) (Function.update prev a none)
      (some a) [a] (some a) :=
  ⟨rfl, rfl, by simp [Seg]⟩

theorem push_back {t : α} (hl : Linked next prev head l (some t)) (hnd : l.Nodup)
    (ha : a ∉ l) :
    Linked (Function.update (Function.update next t (some a)) a none)
      (Function.update prev a (some t)) head (l ++ [a]) (some a) := by
  obtain ⟨l₀, rfl⟩ : ∃ l₀, l = l₀ ++ [t] := List.getLast?_eq_some_iff.mp hl.tail_eq.symm
  have hseg := (hl.seg.setNext_last hnd (some a))
  refine ⟨?_, ?_, ?_⟩
  · rw [hl.head_eq]
    cases l₀ <;> rfl
  · simp
  · rw [seg_append]
    constructor
    · apply hseg.congr
      intro b hb
      have hba : b ≠ a := by
        rintro rfl
        exact ha hb
      exact ⟨Function.update_of_ne hba .., Function.update_of_ne hba ..⟩
    · simp [Seg]

end Linked

def unlinkNext [DecidableEq α] (next prev : α → Option α) (a : α) : α → Option α :=
  match prev a with
  | some p => Function.update next p (next a)
  | none => next

def unlinkPrev [DecidableEq α] (next prev : α → Option α) (a : α) : α → Option α :=
  match next a with
  | some q => Function.update prev q (prev a)
  | none => prev

/-- Unlinking a member leaves the others linked in their order. -/
theorem Linked.unlink [DecidableEq α] {next prev : α → Option α} {head tail : Option α}
    {l₁ l₂ : List α} {a : α} (hl : Linked next prev head (l₁ ++ a :: l₂) tail)
    (hnd : (l₁ ++ a :: l₂).Nodup) :
    Linked (unlinkNext next prev a) (unlinkPrev next prev a)
      (if (prev a).isSome then head else next a) (l₁ ++ l₂)
      (if (next a).isSome then tail else prev a) := by
  obtain ⟨hseg₁, hprev, hnext, hseg₂⟩ := seg_append.mp hl.seg
  rw [Option.or_none] at hprev hnext
  obtain ⟨hnd₁, hnd₂, hdisj⟩ := List.nodup_append.mp hnd
  have hnd₂' := (List.nodup_cons.mp hnd₂).2
  have hcross : ∀ b ∈ l₁, b ∉ l₂ := fun b hb hb' =>
    hdisj b hb b (List.mem_cons_of_mem a hb') rfl
  refine ⟨?_, ?_, ?_⟩
  · rw [hprev, hl.head_eq, hnext]
    cases l₁ <;> simp
  · rw [hnext, hl.tail_eq, hprev]
    cases l₂ with
    | nil => simp
    | cons c l₂ => simp [List.getLast?_append, List.getLast?_cons_cons]
  · rw [seg_append]
    constructor
    · -- the stretch before `a` is pointed at what followed `a`
      have hfst : Seg (unlinkNext next prev a) prev none l₁ (l₂.head?.or none) := by
        rw [Option.or_none, ← hnext, unlinkNext, hprev]
        rcases List.eq_nil_or_concat l₁ with rfl | ⟨l₀, p, rfl⟩
        · trivial
        · rw [List.concat_eq_append] at hseg₁ hnd₁ ⊢
          simpa using hseg₁.setNext_last hnd₁ (next a)
      apply hfst.congr
      intro b hb
      refine ⟨rfl, ?_⟩
      unfold unlinkPrev
      cases hq : next a with
      | none => rfl
      | some q =>
          have hqmem : q ∈ l₂ := List.mem_of_head? (hnext.symm.trans hq)
          apply Function.update_of_ne
          rintro rfl
          exact hcross b hb hqmem
    · have hsnd : Seg next (unlinkPrev next prev a) (l₁.getLast?.or none) l₂ none := by
        rw [Option.or_none, ← hprev, unlinkPrev, hnext]
        cases l₂ with
        | nil => trivial
        | cons q l₂ => simpa using hseg₂.setPrev_head hnd₂' (prev a)
      apply hsnd.congr
      intro b hb
      refine ⟨?_, rfl⟩
      unfold unlinkNext
      cases hp : prev a with
      | none => rfl
      | some p =>
          have hpmem : p ∈ l₁ := List.mem_of_getLast? (hprev.symm.trans hp)
          apply Function.update_of_ne
          rintro rfl
          exact hcross _ hpmem hb

end UltraHft.Lib.DoublyLinked
