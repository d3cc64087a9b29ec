import UltraHft.Core.MemoryPool
import UltraHft.Lib.FreeStack
import Mathlib.Data.List.Induction

/-!
# The slots of a memory pool

The free stack and the occupied bits divide the slots between them, and the
occupied ones are those whose pointers the callers hold.  Both classes come to
the same once the constructor returns.
-/

namespace UltraHft.Core

open UltraHft.Lib

variable {T E : Type*} {l : Storage} {p : Pool T} {slot ptr : Nat} {object : T}
  {cls : PoolClass} {r : PoolRun T}

namespace Storage

theorem ptrAt_lt (l : Storage) (h : slot < l.capacity) :
    l.ptrAt slot + l.stride ≤ l.base + l.stride * l.capacity := by
  have hmul : l.stride * (slot + 1) ≤ l.stride * l.capacity := Nat.mul_le_mul_left _ h
  rw [Nat.mul_succ, Nat.mul_comm] at hmul
  unfold ptrAt
  omega

theorem ptrAt_inj (l : Storage) {i j : Nat} (h : l.ptrAt i = l.ptrAt j) : i = j := by
  have hmul : i * l.stride = j * l.stride := Nat.add_left_cancel h
  exact Nat.eq_of_mul_eq_mul_right l.stride_pos hmul

/-- The pointers that have an index are the starts of the slots. -/
theorem indexOf_eq_some (l : Storage) :
    l.indexOf ptr = some slot ↔ slot < l.capacity ∧ l.ptrAt slot = ptr := by
  have hbase := l.base_pos
  have hstride := l.stride_pos
  constructor
  · intro h
    simp only [indexOf] at h
    split_ifs at h with hnull hrange hmod hcap
    obtain rfl := Option.some.inj h
    have hdiv := Nat.div_add_mod (ptr - l.base) l.stride
    rw [Nat.mul_comm] at hdiv
    unfold ptrAt
    omega
  · intro ⟨hslot, hptr⟩
    subst hptr
    have hlt := l.ptrAt_lt hslot
    have hoffset : l.ptrAt slot - l.base = slot * l.stride := by simp [ptrAt]
    have hle : l.base ≤ l.ptrAt slot := by simp [ptrAt]
    simp only [indexOf, hoffset, Nat.mul_mod_left, Nat.mul_div_cancel _ hstride]
    rw [if_neg (by omega), if_neg (by omega), if_neg (by simp), if_neg (by omega)]

end Storage

/-! ## What the calls come to -/

namespace Pool

/-- `free_list_[0 .. free_top_)` -/
def freeStack (p : Pool T) : List Nat := (List.range p.free_top_).map p.free_list_

def occupiedSlots (p : Pool T) : Set Nat := {slot | p.occupied_ slot = true}

def top (p : Pool T) : Nat := p.free_list_ (p.free_top_ - 1)

def take (p : Pool T) (object : T) : Pool T :=
  { p with
    storage_ := Function.update p.storage_ (p.layout.ptrAt p.top) (some object)
    occupied_ := Function.update p.occupied_ p.top true
    free_top_ := p.free_top_ - 1
    live_count_ := p.live_count_ + 1 }

def give (p : Pool T) (slot : Nat) : Pool T :=
  { p with
    storage_ := Function.update p.storage_ (p.layout.ptrAt slot) none
    free_list_ := Function.update p.free_list_ p.free_top_ slot
    occupied_ := Function.update p.occupied_ slot false
    free_top_ := p.free_top_ + 1
    live_count_ := p.live_count_ - 1 }

theorem freeStack_eq (h : p.free_top_ ≠ 0) (object : T) :
    p.freeStack = (p.take object).freeStack ++ [p.top] := by
  obtain ⟨n, hn⟩ := Nat.exists_eq_succ_of_ne_zero h
  simp [freeStack, take, top, hn, List.range_succ]

theorem freeStack_give : (p.give slot).freeStack = p.freeStack ++ [slot] := by
  have hbelow : (List.range p.free_top_).map (Function.update p.free_list_ p.free_top_ slot) =
      (List.range p.free_top_).map p.free_list_ := by
    apply List.map_congr_left
    intro i hi
    exact Function.update_of_ne (List.mem_range.mp hi).ne _ _
  simp [freeStack, give, List.range_succ, hbelow]

theorem occupiedSlots_take : (p.take object).occupiedSlots = insert p.top p.occupiedSlots := by
  ext i
  by_cases hi : i = p.top
  · simp [occupiedSlots, take, hi]
  · simp [occupiedSlots, take, hi]

theorem occupiedSlots_give : (p.give slot).occupiedSlots = p.occupiedSlots \ {slot} := by
  ext i
  by_cases hi : i = slot
  · simp [occupiedSlots, give, hi]
  · simp [occupiedSlots, give, hi]

theorem mem_freeStack : slot ∈ p.freeStack ↔ ∃ i < p.free_top_, p.free_list_ i = slot := by
  simp [freeStack]

end Pool

namespace PoolClass

theorem allocate_full (h : p.free_top_ = 0) (construct : Except E T) :
    cls.allocate p construct = (.ok none, p) := by
  cases cls with
  | memoryPool => simp [allocate, MemoryPool.allocate, h]
  | memoryPool1 => simp [allocate, MemoryPool1.allocate, h]

theorem allocate_ok (h : p.free_top_ ≠ 0) (object : T) :
    cls.allocate p (.ok object : Except E T) =
      (.ok (some (p.layout.ptrAt p.top)), p.take object) := by
  cases cls with
  | memoryPool =>
      simp only [allocate, MemoryPool.allocate, if_neg h]
      rfl
  | memoryPool1 =>
      simp only [allocate, MemoryPool1.allocate, if_neg h]
      rfl

theorem deallocate_occupied (hptr : p.layout.indexOf ptr = some slot)
    (hslot : p.occupied_ slot = true) : cls.deallocate p ptr = (true, p.give slot) := by
  obtain ⟨_, rfl⟩ := p.layout.indexOf_eq_some.mp hptr
  cases cls with
  | memoryPool =>
      simp only [deallocate, MemoryPool.deallocate, hptr, hslot]
      rfl
  | memoryPool1 =>
      simp only [deallocate, MemoryPool1.deallocate, hptr, hslot]
      rfl

theorem deallocate_other (h : ∀ slot, p.layout.indexOf ptr = some slot →
    p.occupied_ slot = false) : cls.deallocate p ptr = (false, p) := by
  cases hptr : p.layout.indexOf ptr with
  | none => cases cls <;> simp [deallocate, MemoryPool.deallocate, MemoryPool1.deallocate, hptr]
  | some slot =>
      have hslot := h slot hptr
      cases cls <;>
        simp [deallocate, MemoryPool.deallocate, MemoryPool1.deallocate, hptr, hslot]

end PoolClass

/-! ## The invariant -/

/-- The free stack and the occupied slots are the slots `0 .. Capacity - 1`, each
of them once, and the two counters add up to their number. -/
structure Pool.Consistent (p : Pool T) : Prop where
  partition : FreeStack.Partition {slot | slot < p.layout.capacity} p.freeStack p.occupiedSlots
  counters : p.live_count_ + p.free_top_ = p.layout.capacity

namespace PoolRun

/-- The pool is consistent, and its occupied slots are the live ones: they hold
the objects. -/
structure Inv (l : Storage) (r : PoolRun T) : Prop where
  layout : r.pool.layout = l
  consistent : r.pool.Consistent
  nodup : r.live.Nodup
  length : r.live.length = r.pool.live_count_
  mem_live : ∀ ptr, ptr ∈ r.live ↔ ∃ slot, r.pool.occupied_ slot = true ∧ l.ptrAt slot = ptr
  stored : ∀ ptr, (r.pool.storage_ ptr).isSome ↔ ptr ∈ r.live

theorem foldl_initSlot (n : Nat) :
    (List.range n).foldl Pool.initSlot (Pool.uninitialized T l) =
      { Pool.uninitialized T l with
        free_list_ := fun i => if i < n then l.capacity - 1 - i else 0
        occupied_ := fun i => if i < n then false else l.capacity.testBit i } := by
  induction n with
  | zero => simp [Pool.uninitialized]
  | succ n ih =>
      rw [List.range_succ, List.foldl_append, ih]
      simp only [List.foldl_cons, List.foldl_nil, Pool.initSlot, Pool.uninitialized,
        Pool.mk.injEq, true_and, and_true]
      constructor
      · ext i
        by_cases hi : i = n
        · simp [hi]
        · rw [Function.update_of_ne hi]
          simp only [show i < n + 1 ↔ i < n by omega]
      · ext i
        by_cases hi : i = n
        · simp [hi]
        · rw [Function.update_of_ne hi]
          simp only [show i < n + 1 ↔ i < n by omega]

theorem pool_new : Pool.new T l =
    { layout := l
      storage_ := fun _ => none
      free_list_ := fun i => if i < l.capacity then l.capacity - 1 - i else 0
      occupied_ := fun _ => false
      free_top_ := l.capacity
      live_count_ := 0 } := by
  have hbits : (fun i => if i < l.capacity then false else l.capacity.testBit i) =
      fun _ => false := by
    ext i
    by_cases hi : i < l.capacity
    · simp [hi]
    · have hpow : l.capacity < 2 ^ i :=
        Nat.lt_of_lt_of_le Nat.lt_two_pow_self (Nat.pow_le_pow_right (by decide) (by omega))
      simp [hi, Nat.testBit_lt_two_pow hpow]
  rw [Pool.new, foldl_initSlot, hbits]
  rfl

theorem freeStack_new : (Pool.new T l).freeStack = (List.range l.capacity).reverse := by
  rw [pool_new, Pool.freeStack]
  apply List.ext_getElem
  · simp
  · intro i hi _
    have hlt : i < l.capacity := by simpa using hi
    simp [hlt]

theorem inv_new : Inv l (new T l) := by
  have hstack := freeStack_new (T := T) (l := l)
  unfold new
  rw [pool_new] at hstack ⊢
  constructor
  · rfl
  · constructor
    · rw [hstack]
      constructor
      · exact List.nodup_reverse.mpr List.nodup_range
      · simp [Pool.occupiedSlots]
      · simp [Pool.occupiedSlots]
    · simp
  · exact List.nodup_nil
  · rfl
  · simp
  · simp

theorem Inv.top_free (h : Inv l r) (hfree : r.pool.free_top_ ≠ 0) :
    r.pool.top < l.capacity ∧ r.pool.occupied_ r.pool.top = false := by
  have hmem : r.pool.top ∈ r.pool.freeStack :=
    Pool.mem_freeStack.mpr ⟨r.pool.free_top_ - 1, by omega, rfl⟩
  have hslot := h.consistent.partition.free_mem hmem
  have hbit := h.consistent.partition.disjoint _ hmem
  rw [h.layout] at hslot
  exact ⟨hslot, by simpa [Pool.occupiedSlots] using hbit⟩

theorem Inv.top_notMem (h : Inv l r) (hfree : r.pool.free_top_ ≠ 0) :
    l.ptrAt r.pool.top ∉ r.live := by
  intro hmem
  obtain ⟨slot, hslot, hptr⟩ := (h.mem_live _).mp hmem
  obtain rfl := l.ptrAt_inj hptr
  rw [(h.top_free hfree).2] at hslot
  cases hslot

theorem Inv.take (h : Inv l r) (hfree : r.pool.free_top_ ≠ 0) (object : T) :
    Inv l ⟨r.pool.take object, r.live ++ [l.ptrAt r.pool.top]⟩ := by
  have hcounters := h.consistent.counters
  constructor
  · exact h.layout
  · constructor
    · have hpartition := h.consistent.partition
      rw [Pool.freeStack_eq hfree object] at hpartition
      rw [Pool.occupiedSlots_take]
      exact hpartition.take
    · change r.pool.live_count_ + 1 + (r.pool.free_top_ - 1) = r.pool.layout.capacity
      omega
  · have hnodup := List.Nodup.concat (h.top_notMem hfree) h.nodup
    rwa [List.concat_eq_append] at hnodup
  · change (r.live ++ [_]).length = r.pool.live_count_ + 1
    rw [List.length_append, h.length]
    rfl
  · intro ptr
    rw [List.mem_append, List.mem_singleton, h.mem_live]
    constructor
    · rintro (⟨slot, hslot, hptr⟩ | hptr)
      · refine ⟨slot, ?_, hptr⟩
        by_cases htop : slot = r.pool.top
        · simp [Pool.take, htop]
        · simp [Pool.take, htop, hslot]
      · exact ⟨r.pool.top, by simp [Pool.take], hptr.symm⟩
    · rintro ⟨slot, hslot, hptr⟩
      by_cases htop : slot = r.pool.top
      · exact .inr (by rw [← hptr, htop])
      · exact .inl ⟨slot, by simpa [Pool.take, htop] using hslot, hptr⟩
  · intro ptr
    rw [List.mem_append, List.mem_singleton, ← h.stored]
    by_cases hptr : ptr = l.ptrAt r.pool.top
    · simp [Pool.take, hptr, h.layout]
    · simp [Pool.take, hptr, h.layout]

theorem Inv.give (h : Inv l r) (hslot : r.pool.occupied_ slot = true) :
    Inv l ⟨r.pool.give slot, r.live.erase (l.ptrAt slot)⟩ := by
  have hmem : l.ptrAt slot ∈ r.live := (h.mem_live _).mpr ⟨slot, hslot, rfl⟩
  have hpos : 0 < r.live.length := List.length_pos_of_mem hmem
  have hlength := h.length
  have hcounters := h.consistent.counters
  constructor
  · exact h.layout
  · constructor
    · rw [Pool.freeStack_give, Pool.occupiedSlots_give]
      exact h.consistent.partition.give hslot
    · change r.pool.live_count_ - 1 + (r.pool.free_top_ + 1) = r.pool.layout.capacity
      omega
  · exact h.nodup.erase _
  · change (r.live.erase _).length = r.pool.live_count_ - 1
    rw [List.length_erase_of_mem hmem, hlength]
  · intro ptr
    rw [h.nodup.mem_erase_iff, h.mem_live]
    constructor
    · rintro ⟨hne, i, hi, rfl⟩
      have his : i ≠ slot := fun his => hne (his ▸ rfl)
      exact ⟨i, by simp [Pool.give, his, hi], rfl⟩
    · rintro ⟨i, hi, rfl⟩
      by_cases his : i = slot
      · simp [Pool.give, his] at hi
      · exact ⟨fun heq => his (l.ptrAt_inj heq), i, by simpa [Pool.give, his] using hi, rfl⟩
  · intro ptr
    rw [h.nodup.mem_erase_iff, ← h.stored]
    by_cases hptr : ptr = l.ptrAt slot
    · simp [Pool.give, hptr, h.layout]
    · simp [Pool.give, hptr, h.layout]

/-! ## The calls, in a state of a run -/

/-- The null pointer is returned exactly when all slots are live, and a pointer
is the start of a slot that is not. -/
structure AllocatesFresh (cls : PoolClass) (r : PoolRun T) (object : T) : Prop where
  returns : ∃ ptr, (cls.allocate r.pool (.ok object : Except E T)).1 = .ok ptr
  null_iff : (cls.allocate r.pool (.ok object : Except E T)).1 = .ok none ↔
    r.live.length = r.pool.layout.capacity
  fresh : ∀ ptr, (cls.allocate r.pool (.ok object : Except E T)).1 = .ok (some ptr) →
    ptr ∉ r.live ∧ ∃ slot < r.pool.layout.capacity,
      r.pool.occupied_ slot = false ∧ r.pool.layout.ptrAt slot = ptr

/-- A pointer is taken back exactly when it is live, that is the start of a live
slot; otherwise nothing changes. -/
structure DeallocatesLive (cls : PoolClass) (r : PoolRun T) (ptr : Nat) : Prop where
  true_iff : (cls.deallocate r.pool ptr).1 = true ↔ ptr ∈ r.live
  live_iff : ptr ∈ r.live ↔ ∃ slot < r.pool.layout.capacity,
    r.pool.occupied_ slot = true ∧ r.pool.layout.ptrAt slot = ptr
  unchanged : (cls.deallocate r.pool ptr).1 = false → (cls.deallocate r.pool ptr).2 = r.pool

theorem Inv.live_iff (h : Inv l r) :
    ptr ∈ r.live ↔ ∃ slot < l.capacity, r.pool.occupied_ slot = true ∧ l.ptrAt slot = ptr := by
  rw [h.mem_live]
  constructor
  · intro ⟨slot, hslot, hptr⟩
    have hlt := h.consistent.partition.busy_mem hslot
    rw [h.layout] at hlt
    exact ⟨slot, hlt, hslot, hptr⟩
  · intro ⟨slot, _, hslot, hptr⟩
    exact ⟨slot, hslot, hptr⟩

theorem Inv.allocatesFresh (h : Inv l r) (object : T) :
    AllocatesFresh (E := E) cls r object := by
  have hcounters := h.consistent.counters
  have hlength := h.length
  by_cases hfree : r.pool.free_top_ = 0
  · have hresult := cls.allocate_full hfree (.ok object : Except E T)
    constructor
    · exact ⟨none, by rw [hresult]⟩
    · rw [hresult]
      simp only [true_iff]
      omega
    · rw [hresult]
      simp
  · have hresult := cls.allocate_ok (E := E) hfree object
    constructor
    · exact ⟨_, by rw [hresult]⟩
    · rw [hresult]
      simp only [Except.ok.injEq, reduceCtorEq, false_iff]
      omega
    · intro ptr hptr
      rw [hresult] at hptr
      obtain rfl : r.pool.layout.ptrAt r.pool.top = ptr := by simpa using hptr
      rw [h.layout]
      exact ⟨h.top_notMem hfree, _, (h.top_free hfree).1, (h.top_free hfree).2, rfl⟩

/-- What `deallocate` comes to for a pointer that is live and for one that is not. -/
theorem Inv.deallocate_cases (h : Inv l r) (cls : PoolClass) (ptr : Nat) :
    (∃ slot, r.pool.occupied_ slot = true ∧ l.ptrAt slot = ptr ∧ ptr ∈ r.live ∧
      cls.deallocate r.pool ptr = (true, r.pool.give slot)) ∨
    (ptr ∉ r.live ∧ cls.deallocate r.pool ptr = (false, r.pool)) := by
  by_cases hlive : ptr ∈ r.live
  · obtain ⟨slot, hlt, hslot, hptr⟩ := h.live_iff.mp hlive
    have hindex : r.pool.layout.indexOf ptr = some slot := by
      rw [h.layout]
      exact l.indexOf_eq_some.mpr ⟨hlt, hptr⟩
    exact .inl ⟨slot, hslot, hptr, hlive, cls.deallocate_occupied hindex hslot⟩
  · refine .inr ⟨hlive, cls.deallocate_other ?_⟩
    intro slot hindex
    rw [h.layout, l.indexOf_eq_some] at hindex
    by_contra hslot
    exact hlive (h.live_iff.mpr ⟨slot, hindex.1, by simpa using hslot, hindex.2⟩)

theorem Inv.deallocatesLive (h : Inv l r) (ptr : Nat) : DeallocatesLive cls r ptr := by
  have hlive : ptr ∈ r.live ↔ ∃ slot < r.pool.layout.capacity,
      r.pool.occupied_ slot = true ∧ r.pool.layout.ptrAt slot = ptr := by
    rw [h.layout]
    exact h.live_iff
  rcases h.deallocate_cases cls ptr with ⟨slot, _, _, hmem, hresult⟩ | ⟨hmem, hresult⟩
  · constructor
    · simp [hresult, hmem]
    · exact hlive
    · simp [hresult]
  · constructor
    · simp [hresult, hmem]
    · exact hlive
    · simp [hresult]

theorem Inv.step (h : Inv l r) (call : PoolCall E T)
    (hcall : ∀ e, call ≠ .allocate (.error e)) : Inv l (r.step cls call) := by
  cases call with
  | allocate construct =>
      cases construct with
      | error e => exact (hcall e rfl).elim
      | ok object =>
          by_cases hfree : r.pool.free_top_ = 0
          · rw [PoolRun.step, cls.allocate_full hfree]
            exact h
          · rw [PoolRun.step, cls.allocate_ok hfree, h.layout]
            exact h.take hfree object
  | deallocate ptr =>
      rcases h.deallocate_cases cls ptr with ⟨slot, hslot, rfl, _, hresult⟩ | ⟨_, hresult⟩
      · rw [PoolRun.step, hresult]
        exact h.give hslot
      · rw [PoolRun.step, hresult]
        exact h

theorem inv_run (cls : PoolClass) (l : Storage) (calls : List (PoolCall E T))
    (hcalls : ∀ e, .allocate (.error e) ∉ calls) : Inv l (run cls l calls) := by
  induction calls using List.reverseRecOn with
  | nil => exact inv_new
  | append_singleton calls call ih =>
      rw [run, List.foldl_append]
      apply (ih fun e he => hcalls e (by simp [he])).step call
      intro e he
      exact hcalls e (by simp [he])

/-- **After any calls of a pool with constructors that return, the free stack and
the occupied slots divide the slots between them, an allocation hands out a slot
that is not live, and nothing but the start of a live slot is taken back.** -/
theorem slots_divided (cls : PoolClass) (l : Storage) (calls : List (PoolCall E T))
    (hcalls : ∀ e, .allocate (.error e) ∉ calls) :
    (run cls l calls).pool.layout = l ∧ (run cls l calls).pool.Consistent ∧
      (∀ object, AllocatesFresh (E := E) cls (run cls l calls) object) ∧
      ∀ ptr, DeallocatesLive cls (run cls l calls) ptr := by
  have h := inv_run cls l calls hcalls
  exact ⟨h.layout, h.consistent, h.allocatesFresh, h.deallocatesLive⟩

/-- Two slots of sixteen bytes: the pointer to the second has been freed, and is
not taken back again. -/
theorem slots_divided_freedTwice :
    (PoolClass.memoryPool.deallocate (run (E := Unit) .memoryPool
      ⟨4096, 16, 2, by decide, by decide, by decide, by decide⟩
      [.allocate (.ok 101), .allocate (.ok 202), .deallocate 4112]).pool 4112).1 = false := by
  have hdivided := slots_divided (E := Unit) .memoryPool
    ⟨4096, 16, 2, by decide, by decide, by decide, by decide⟩
    [.allocate (.ok 101), .allocate (.ok 202), .deallocate 4112] (by simp)
  have hlive : 4112 ∉ (run (E := Unit) .memoryPool
      ⟨4096, 16, 2, by decide, by decide, by decide, by decide⟩
      [.allocate (.ok 101), .allocate (.ok 202), .deallocate 4112]).live := by decide
  exact Bool.eq_false_iff.mpr fun htrue => hlive ((hdivided.2.2.2 4112).true_iff.mp htrue)

end PoolRun

end UltraHft.Core
