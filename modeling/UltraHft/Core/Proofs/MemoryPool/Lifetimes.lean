import UltraHft.Core.Proofs.MemoryPool.ThrowingConstructor
import UltraHft.Lib.Lifetimes
import Mathlib.Order.BooleanAlgebra.Set

/-!
# The objects of a memory pool

What the callers of a pool see of its objects: which they have constructed, where,
and which they have given back.  A constructor may throw.  The log is one of
lifetimes whatever is called, and what the destructor destroys completes it, so
every object dies once: an exception costs a `MemoryPool` a slot, but never an
object.
-/

namespace UltraHft.Core

open UltraHft.Lib

variable {T E : Type*} {l : Storage} {p : Pool T} {slot ptr : Nat} {cls : PoolClass}

/-- A pool in use, with the log of its objects and the number of exceptions that
have come out of `allocate`. -/
structure PoolLife (T : Type*) extends PoolRun T where
  log : List (Lifetimes.Event Nat T)
  thrown : Nat

/-- The storage holds an object at each of these slots, and nothing else. -/
def Storage.Holds (l : Storage) (storage : Nat → Option T) (slots : Set Nat) : Prop :=
  ∀ ptr, (storage ptr).isSome ↔ ∃ slot ∈ slots, l.ptrAt slot = ptr

theorem Storage.Holds.take {storage : Nat → Option T} {slots : Set Nat}
    (h : l.Holds storage slots) (slot : Nat) (object : T) :
    l.Holds (Function.update storage (l.ptrAt slot) (some object)) (insert slot slots) := by
  intro ptr
  by_cases hptr : ptr = l.ptrAt slot
  · simp [hptr]
  · rw [Function.update_of_ne hptr, h]
    simp [Ne.symm hptr]

theorem Storage.Holds.give {storage : Nat → Option T} {slots : Set Nat}
    (h : l.Holds storage slots) (slot : Nat) :
    l.Holds (Function.update storage (l.ptrAt slot) none) (slots \ {slot}) := by
  intro ptr
  by_cases hptr : ptr = l.ptrAt slot
  · subst hptr
    simp only [Function.update_self, Option.isSome_none, Bool.false_eq_true, false_iff]
    rintro ⟨i, hi, heq⟩
    exact hi.2 (l.ptrAt_inj heq)
  · rw [Function.update_of_ne hptr, h]
    constructor
    · rintro ⟨i, hi, rfl⟩
      exact ⟨i, ⟨hi, fun his => hptr (his ▸ rfl)⟩, rfl⟩
    · rintro ⟨i, hi, rfl⟩
      exact ⟨i, hi.1, rfl⟩

theorem Pool.freeStack_pop (h : p.free_top_ ≠ 0) :
    p.freeStack = { p with free_top_ := p.free_top_ - 1 }.freeStack ++ [p.top] := by
  obtain ⟨n, hn⟩ := Nat.exists_eq_succ_of_ne_zero h
  simp [freeStack, top, hn, List.range_succ]

namespace PoolRun

def events (cls : PoolClass) (r : PoolRun T) : PoolCall E T → List (Lifetimes.Event Nat T)
  | .allocate construct =>
      match construct, (cls.allocate r.pool construct).1 with
      | .ok object, .ok (some ptr) => [.born ptr object]
      | _, _ => []
  | .deallocate ptr => if (cls.deallocate r.pool ptr).1 then [.dies ptr] else []

def throws (cls : PoolClass) (r : PoolRun T) : PoolCall E T → Nat
  | .allocate construct =>
      match (cls.allocate r.pool construct).1 with
      | .error _ => 1
      | .ok _ => 0
  | .deallocate _ => 0

end PoolRun

namespace PoolLife

def new (T : Type*) (l : Storage) : PoolLife T := ⟨.new T l, [], 0⟩

def step (cls : PoolClass) (r : PoolLife T) (call : PoolCall E T) : PoolLife T :=
  ⟨r.toPoolRun.step cls call, r.log ++ r.events cls call, r.thrown + r.throws cls call⟩

def run (cls : PoolClass) (l : Storage) (calls : List (PoolCall E T)) : PoolLife T :=
  calls.foldl (step cls) (new T l)

def lost (cls : PoolClass) (r : PoolLife T) : Nat :=
  match cls with
  | .memoryPool => r.thrown
  | .memoryPool1 => 0

/-- The free and the occupied slots are apart, the occupied ones hold the objects
of the log, and what is neither has been lost. -/
structure Inv (cls : PoolClass) (l : Storage) (r : PoolLife T) : Prop where
  layout : r.pool.layout = l
  partition : ∃ kept ⊆ {slot | slot < l.capacity},
    FreeStack.Partition kept r.pool.freeStack r.pool.occupiedSlots
  stored : l.Holds r.pool.storage_ r.pool.occupiedSlots
  nodup : r.live.Nodup
  mem_live : ∀ ptr, ptr ∈ r.live ↔ (r.pool.storage_ ptr).isSome
  length : r.live.length = r.pool.live_count_
  counters : r.pool.live_count_ + r.pool.free_top_ + r.lost cls = l.capacity
  log : Lifetimes.after r.log = some r.pool.storage_

theorem inv_new : Inv cls l (new T l) := by
  have h := PoolRun.inv_new (T := T) (l := l)
  have hnone : (Pool.new T l).storage_ = fun _ => none := by rw [PoolRun.pool_new]
  constructor
  · exact h.layout
  · have hpartition := h.consistent.partition
    rw [h.layout] at hpartition
    exact ⟨_, fun _ hslot => hslot, hpartition⟩
  · intro ptr
    exact (h.stored ptr).trans (h.mem_live ptr)
  · exact List.nodup_nil
  · intro ptr
    exact (h.stored ptr).symm
  · exact h.length
  · have hcounters := h.consistent.counters
    rw [h.layout] at hcounters
    cases cls with
    | memoryPool => exact hcounters
    | memoryPool1 => exact hcounters
  · change some (fun _ => none) = some (Pool.new T l).storage_
    rw [hnone]

variable {r : PoolLife T}

theorem Inv.occupied_lt (h : Inv cls l r) (hslot : r.pool.occupied_ slot = true) :
    slot < l.capacity := by
  obtain ⟨kept, hkept, hpartition⟩ := h.partition
  exact hkept (hpartition.busy_mem hslot)

theorem Inv.top_empty (h : Inv cls l r) (hfree : r.pool.free_top_ ≠ 0) :
    r.pool.storage_ (l.ptrAt r.pool.top) = none := by
  obtain ⟨kept, -, hpartition⟩ := h.partition
  have hmem : r.pool.top ∈ r.pool.freeStack :=
    Pool.mem_freeStack.mpr ⟨r.pool.free_top_ - 1, by omega, rfl⟩
  by_contra hfull
  obtain ⟨slot, hslot, hptr⟩ := (h.stored _).mp (Option.isSome_iff_ne_none.mpr hfull)
  obtain rfl := l.ptrAt_inj hptr
  exact hpartition.disjoint _ hmem hslot

theorem Inv.take (h : Inv cls l r) (hfree : r.pool.free_top_ ≠ 0) (object : T) :
    Inv cls l ⟨⟨r.pool.take object, r.live ++ [l.ptrAt r.pool.top]⟩,
      r.log ++ [.born (l.ptrAt r.pool.top) object], r.thrown⟩ := by
  have hempty := h.top_empty hfree
  have hstorage : (r.pool.take object).storage_ =
      Function.update r.pool.storage_ (l.ptrAt r.pool.top) (some object) := by
    rw [Pool.take, h.layout]
  have hnotMem : l.ptrAt r.pool.top ∉ r.live := by simp [h.mem_live, hempty]
  constructor
  · exact h.layout
  · obtain ⟨kept, hkept, hpartition⟩ := h.partition
    rw [Pool.freeStack_eq hfree object] at hpartition
    rw [Pool.occupiedSlots_take]
    exact ⟨kept, hkept, hpartition.take⟩
  · change l.Holds (r.pool.take object).storage_ (r.pool.take object).occupiedSlots
    rw [hstorage, Pool.occupiedSlots_take]
    exact h.stored.take _ _
  · have hnodup := List.Nodup.concat hnotMem h.nodup
    rwa [List.concat_eq_append] at hnodup
  · intro ptr
    change _ ↔ ((r.pool.take object).storage_ ptr).isSome
    rw [hstorage, List.mem_append, List.mem_singleton, h.mem_live]
    by_cases hptr : ptr = l.ptrAt r.pool.top
    · simp [hptr]
    · simp [hptr]
  · change (r.live ++ [_]).length = r.pool.live_count_ + 1
    rw [List.length_append, h.length]
    rfl
  · have hcounters := h.counters
    change r.pool.live_count_ + 1 + (r.pool.free_top_ - 1) + r.lost cls = l.capacity
    omega
  · change Lifetimes.after _ = some (r.pool.take object).storage_
    rw [Lifetimes.after_snoc h.log, Lifetimes.next_born hempty, hstorage]

theorem Inv.give (h : Inv cls l r) (hslot : r.pool.occupied_ slot = true) :
    Inv cls l ⟨⟨r.pool.give slot, r.live.erase (l.ptrAt slot)⟩,
      r.log ++ [.dies (l.ptrAt slot)], r.thrown⟩ := by
  have hlive : (r.pool.storage_ (l.ptrAt slot)).isSome := (h.stored _).mpr ⟨slot, hslot, rfl⟩
  have hmem : l.ptrAt slot ∈ r.live := (h.mem_live _).mpr hlive
  have hpos : 0 < r.live.length := List.length_pos_of_mem hmem
  have hlength := h.length
  have hstorage : (r.pool.give slot).storage_ =
      Function.update r.pool.storage_ (l.ptrAt slot) none := by
    rw [Pool.give, h.layout]
  constructor
  · exact h.layout
  · obtain ⟨kept, hkept, hpartition⟩ := h.partition
    rw [Pool.freeStack_give, Pool.occupiedSlots_give]
    exact ⟨kept, hkept, hpartition.give hslot⟩
  · change l.Holds (r.pool.give slot).storage_ (r.pool.give slot).occupiedSlots
    rw [hstorage, Pool.occupiedSlots_give]
    exact h.stored.give _
  · exact h.nodup.erase _
  · intro ptr
    change _ ↔ ((r.pool.give slot).storage_ ptr).isSome
    rw [hstorage, h.nodup.mem_erase_iff, h.mem_live]
    by_cases hptr : ptr = l.ptrAt slot
    · simp [hptr]
    · simp [hptr]
  · change (r.live.erase _).length = r.pool.live_count_ - 1
    rw [List.length_erase_of_mem hmem, hlength]
  · have hcounters := h.counters
    change r.pool.live_count_ - 1 + (r.pool.free_top_ + 1) + r.lost cls = l.capacity
    omega
  · change Lifetimes.after _ = some (r.pool.give slot).storage_
    rw [Lifetimes.after_snoc h.log, Lifetimes.next_dies hlive, hstorage]

/-- A constructor throws in a `MemoryPool`: the top slot is lost. -/
theorem Inv.lose (h : Inv .memoryPool l r) (hfree : r.pool.free_top_ ≠ 0) :
    Inv .memoryPool l ⟨⟨{ r.pool with free_top_ := r.pool.free_top_ - 1 }, r.live⟩,
      r.log, r.thrown + 1⟩ := by
  constructor
  · exact h.layout
  · obtain ⟨kept, hkept, hpartition⟩ := h.partition
    rw [Pool.freeStack_pop hfree] at hpartition
    exact ⟨kept \ {r.pool.top}, fun _ hslot => hkept hslot.1, hpartition.lose⟩
  · exact h.stored
  · exact h.nodup
  · exact h.mem_live
  · exact h.length
  · have hcounters : r.pool.live_count_ + r.pool.free_top_ + r.thrown = l.capacity := h.counters
    change r.pool.live_count_ + (r.pool.free_top_ - 1) + (r.thrown + 1) = l.capacity
    omega
  · exact h.log

theorem Inv.keep (h : Inv .memoryPool1 l r) (thrown : Nat) :
    Inv .memoryPool1 l ⟨r.toPoolRun, r.log, thrown⟩ where
  layout := h.layout
  partition := h.partition
  stored := h.stored
  nodup := h.nodup
  mem_live := h.mem_live
  length := h.length
  counters := h.counters
  log := h.log

theorem Inv.deallocate_cases (h : Inv cls l r) (ptr : Nat) :
    (∃ slot, r.pool.occupied_ slot = true ∧ l.ptrAt slot = ptr ∧
      cls.deallocate r.pool ptr = (true, r.pool.give slot)) ∨
    cls.deallocate r.pool ptr = (false, r.pool) := by
  by_cases hptr : ∃ slot, r.pool.layout.indexOf ptr = some slot ∧ r.pool.occupied_ slot = true
  · obtain ⟨slot, hindex, hslot⟩ := hptr
    have hstart := (r.pool.layout.indexOf_eq_some.mp hindex).2
    rw [h.layout] at hstart
    exact .inl ⟨slot, hslot, hstart, cls.deallocate_occupied hindex hslot⟩
  · refine .inr (cls.deallocate_other ?_)
    intro slot hindex
    by_contra hslot
    exact hptr ⟨slot, hindex, by simpa using hslot⟩

theorem Inv.step (h : Inv cls l r) (call : PoolCall E T) : Inv cls l (r.step cls call) := by
  cases call with
  | allocate construct =>
      by_cases hfull : r.pool.free_top_ = 0
      · have hresult := cls.allocate_full hfull construct
        have hstep : r.step cls (.allocate construct) = r := by
          cases construct <;>
            simp [PoolLife.step, PoolRun.step, PoolRun.events, PoolRun.throws, hresult]
        rw [hstep]
        exact h
      · cases construct with
        | ok object =>
            have hresult := cls.allocate_ok (E := E) hfull object
            simp only [PoolLife.step, PoolRun.step, PoolRun.events, PoolRun.throws, hresult,
              h.layout]
            exact h.take hfull object
        | error e =>
            cases cls with
            | memoryPool =>
                have hresult := PoolClass.memoryPool_allocate_error (e := e) hfull
                simp only [PoolLife.step, PoolRun.step, PoolRun.events, PoolRun.throws, hresult,
                  List.append_nil]
                exact h.lose hfull
            | memoryPool1 =>
                have hresult : PoolClass.memoryPool1.allocate r.pool (.error e : Except E T) =
                    (.error e, r.pool) := by
                  simp [PoolClass.allocate, MemoryPool1.allocate, hfull]
                simp only [PoolLife.step, PoolRun.step, PoolRun.events, PoolRun.throws, hresult,
                  List.append_nil]
                exact h.keep _
  | deallocate ptr =>
      rcases h.deallocate_cases ptr with ⟨slot, hslot, rfl, hresult⟩ | hresult
      · simp only [PoolLife.step, PoolRun.step, PoolRun.events, PoolRun.throws, hresult]
        exact h.give hslot
      · simp only [PoolLife.step, PoolRun.step, PoolRun.events, PoolRun.throws, hresult]
        exact ⟨h.layout, h.partition, h.stored, h.nodup, h.mem_live, h.length, h.counters,
          by simpa using h.log⟩

theorem inv_run (cls : PoolClass) (l : Storage) (calls : List (PoolCall E T)) :
    Inv cls l (run cls l calls) := by
  induction calls using List.reverseRecOn with
  | nil => exact inv_new
  | append_singleton calls call ih =>
      rw [run, List.foldl_append]
      exact ih.step call

/-! ## The destructor -/

/-- After some rounds of the destructor's loop: the slots before `n` are empty. -/
structure Destroying (l : Storage) (r : PoolLife T) (n : Nat) (p : Pool T) (ptrs : List Nat) :
    Prop where
  layout : p.layout = l
  occupied : p.occupiedSlots = r.pool.occupiedSlots \ {slot | slot < n}
  stored : l.Holds p.storage_ p.occupiedSlots
  log : Lifetimes.after (r.log ++ ptrs.map .dies) = some p.storage_

theorem Destroying.round {n : Nat} {s : Pool T × List Nat} (h : Destroying l r n s.1 s.2) :
    Destroying l r (n + 1) (Pool.destroySlot s n).1 (Pool.destroySlot s n).2 := by
  have hbefore : ({slot | slot < n + 1} : Set Nat) = {slot | slot < n} ∪ {n} := by
    ext slot
    simp only [Set.mem_ofPred_eq, Set.mem_union, Set.mem_singleton_iff]
    omega
  by_cases hslot : s.1.occupied_ n = true
  · have hlive : (s.1.storage_ (l.ptrAt n)).isSome := (h.stored _).mpr ⟨n, hslot, rfl⟩
    have hround : Pool.destroySlot s n =
        ({ s.1 with
            storage_ := Function.update s.1.storage_ (l.ptrAt n) none
            occupied_ := Function.update s.1.occupied_ n false }, s.2 ++ [l.ptrAt n]) := by
      simp only [Pool.destroySlot, Pool.destroyAt, if_pos hslot, h.layout]
    have hslots : (Pool.destroySlot s n).1.occupiedSlots = s.1.occupiedSlots \ {n} := by
      rw [hround]
      exact Pool.occupiedSlots_give (p := s.1)
    constructor
    · rw [hround]
      exact h.layout
    · rw [hslots, h.occupied, hbefore, Set.sdiff_sdiff]
    · rw [hslots, hround]
      exact h.stored.give n
    · rw [hround, List.map_append, ← List.append_assoc, List.map_singleton,
        Lifetimes.after_snoc h.log, Lifetimes.next_dies hlive]
  · have hround : Pool.destroySlot s n = s := by simp only [Pool.destroySlot, if_neg hslot]
    rw [hround]
    refine ⟨h.layout, ?_, h.stored, h.log⟩
    rw [hbefore, ← Set.sdiff_sdiff, ← h.occupied]
    have hnotMem : n ∉ s.1.occupiedSlots := hslot
    exact (Set.sdiff_singleton_eq_self hnotMem).symm

theorem Inv.destroying (h : Inv cls l r) (n : Nat) :
    Destroying l r n ((List.range n).foldl Pool.destroySlot (r.pool, [])).1
      ((List.range n).foldl Pool.destroySlot (r.pool, [])).2 := by
  induction n with
  | zero =>
      have hnone : ({slot | slot < 0} : Set Nat) = ∅ := by
        ext slot
        simp
      refine ⟨h.layout, ?_, h.stored, ?_⟩
      · rw [hnone, Set.sdiff_empty]
        rfl
      · simpa using h.log
  | succ n ih =>
      rw [List.range_succ, List.foldl_append]
      exact ih.round

/-- What a pool promises of its objects: the pointers that the callers hold are
those of the objects that live, each slot is in use, free or lost, and the
destructor destroys what is left of them, so that each object dies once. -/
structure Cleans (cls : PoolClass) (l : Storage) (r : PoolLife T) : Prop where
  lifetimes : Lifetimes.after r.log = some r.pool.storage_
  live : r.live.Nodup ∧ ∀ ptr, ptr ∈ r.live ↔ (r.pool.storage_ ptr).isSome
  accounted : MemoryPool.size r.pool + MemoryPool.available r.pool + r.lost cls = l.capacity
  destroyed : ∃ p ptrs, cls.destroy r.pool = some (p, ptrs) ∧
    (∀ slot, p.occupied_ slot = false) ∧ (p.storage_ = fun _ => none) ∧
    Lifetimes.Paired (r.log ++ ptrs.map .dies)

theorem Inv.cleans (h : Inv cls l r) (hfits : cls = .memoryPool1 → l.capacity < 2 ^ 31) :
    Cleans cls l r := by
  refine ⟨h.log, ⟨h.nodup, h.mem_live⟩, h.counters, ?_⟩
  have hloop := h.destroying l.capacity
  have hdestroy : cls.destroy r.pool =
      some ((List.range l.capacity).foldl Pool.destroySlot (r.pool, [])) := by
    cases cls with
    | memoryPool => simp only [PoolClass.destroy, MemoryPool.destroy, h.layout]
    | memoryPool1 =>
        simp only [PoolClass.destroy, MemoryPool1.destroy, h.layout, if_pos (hfits rfl)]
  generalize (List.range l.capacity).foldl Pool.destroySlot (r.pool, []) = s at hloop hdestroy
  have hempty : ∀ slot, slot ∉ s.1.occupiedSlots := by
    intro slot hslot
    rw [hloop.occupied] at hslot
    exact hslot.2 (h.occupied_lt hslot.1)
  have hstorage : s.1.storage_ = fun _ => none := by
    funext ptr
    by_contra hptr
    obtain ⟨slot, hslot, -⟩ := (hloop.stored ptr).mp (Option.isSome_iff_ne_none.mpr hptr)
    exact hempty slot hslot
  refine ⟨s.1, s.2, hdestroy, fun slot => Bool.eq_false_iff.mpr (hempty slot), hstorage, ?_⟩
  apply Lifetimes.paired_of_after
  rw [hloop.log, hstorage]

/-- **Whatever is allocated and given back, and whichever constructors throw, the
objects of a pool are constructed on empty slots, and each of them is destroyed
exactly once, by `deallocate` or by the destructor; an exception costs at most a
slot.** -/
theorem objects_die_once (cls : PoolClass) (l : Storage) (calls : List (PoolCall E T))
    (hfits : cls = .memoryPool1 → l.capacity < 2 ^ 31) : Cleans cls l (run cls l calls) :=
  (inv_run cls l calls).cleans hfits

/-- Two slots, an exception between two objects, and one object given back: the
other is left to the destructor. -/
theorem objects_die_once_oneThrows :
    Cleans .memoryPool1 ⟨4096, 16, 2, by decide, by decide, by decide, by decide⟩
      (run .memoryPool1 ⟨4096, 16, 2, by decide, by decide, by decide, by decide⟩
        [.allocate (.ok 101), .allocate (.error ()), .allocate (.ok 202), .deallocate 4096]) :=
  objects_die_once _ _ _ (fun _ => by decide)

end PoolLife

end UltraHft.Core
