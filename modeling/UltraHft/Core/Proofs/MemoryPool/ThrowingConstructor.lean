import UltraHft.Core.Proofs.MemoryPool

/-!
# Constructors that throw

`MemoryPool` takes the slot off the stack before it constructs the object, so an
exception of the constructor loses the slot; `MemoryPool1` takes it off after.
Only in a full pool, where no constructor runs, does `MemoryPool` stay as it was.
-/

namespace UltraHft.Core

variable {T E : Type*} {l : Storage} {p : Pool T} {r : PoolRun T} {cls : PoolClass} {e : E}

namespace PoolClass

/-- The slot is off the stack and nowhere else. -/
theorem memoryPool_allocate_error (hfree : p.free_top_ ≠ 0) :
    memoryPool.allocate p (.error e) = (.error e, { p with free_top_ := p.free_top_ - 1 }) := by
  simp [allocate, MemoryPool.allocate, hfree]

theorem memoryPool1_allocate_error : (memoryPool1.allocate p (.error e)).2 = p := by
  by_cases hfree : p.free_top_ = 0
  · rw [allocate_full hfree]
  · simp [allocate, MemoryPool1.allocate, hfree]

end PoolClass

namespace PoolRun

theorem run_snoc (calls : List (PoolCall E T)) (call : PoolCall E T) :
    run cls l (calls ++ [call]) = (run cls l calls).step cls call := by
  rw [run, List.foldl_append]
  rfl

theorem step_throw (h : (cls.allocate r.pool (.error e)).2 = r.pool) :
    r.step cls (.allocate (.error e)) = r := by
  by_cases hfree : r.pool.free_top_ = 0
  · rw [step, cls.allocate_full hfree]
  · cases cls with
    | memoryPool =>
        rw [step, PoolClass.memoryPool_allocate_error hfree]
        rw [PoolClass.memoryPool_allocate_error hfree] at h
        exact congrArg (PoolRun.mk · r.live) h
    | memoryPool1 =>
        have hresult : PoolClass.memoryPool1.allocate r.pool (.error e : Except E T) =
            (.error e, r.pool) := by
          simp [PoolClass.allocate, MemoryPool1.allocate, hfree]
        rw [step, hresult]

theorem memoryPool_throw_iff :
    (r.step .memoryPool (.allocate (.error e))).pool = r.pool ↔
      MemoryPool.available r.pool = 0 := by
  constructor
  · intro hpool
    by_contra hfree
    rw [step, PoolClass.memoryPool_allocate_error hfree] at hpool
    have htop : r.pool.free_top_ - 1 = r.pool.free_top_ := congrArg Pool.free_top_ hpool
    exact hfree (by unfold MemoryPool.available; omega)
  · intro hfull
    rw [step, PoolClass.allocate_full hfull]

/-- What a run promises of exceptions: each of them leaves the pool as it was,
and in every state each slot is live or available. -/
structure KeepsSlots (cls : PoolClass) (l : Storage) (calls : List (PoolCall E T)) : Prop where
  unchanged : ∀ before e, before ++ [.allocate (.error e)] <+: calls →
    (run cls l (before ++ [.allocate (.error e)])).pool = (run cls l before).pool
  accounted : ∀ before, before <+: calls →
    MemoryPool.size (run cls l before).pool + MemoryPool.available (run cls l before).pool =
      l.capacity

theorem Inv.accounted (h : Inv l r) :
    MemoryPool.size r.pool + MemoryPool.available r.pool = l.capacity := by
  have hcounters := h.consistent.counters
  rwa [h.layout] at hcounters

/-- The exceptions that leave the pool as it was can be left out of the run. -/
theorem inv_run_of_unchanged (calls : List (PoolCall E T))
    (h : ∀ before e, before ++ [.allocate (.error e)] <+: calls →
      (cls.allocate (run cls l before).pool (.error e)).2 = (run cls l before).pool) :
    Inv l (run cls l calls) := by
  induction calls using List.reverseRecOn with
  | nil => exact inv_new
  | append_singleton calls call ih =>
      have hinv := ih fun before e hbefore =>
        h before e (hbefore.trans (List.prefix_append calls [call]))
      rw [run_snoc]
      by_cases hthrow : ∃ e, call = .allocate (.error e)
      · obtain ⟨e, rfl⟩ := hthrow
        rw [step_throw (h calls e List.prefix_rfl)]
        exact hinv
      · apply hinv.step call
        intro e he
        exact hthrow ⟨e, he⟩

theorem keepsSlots_of_unchanged {calls : List (PoolCall E T)}
    (h : ∀ before e, before ++ [.allocate (.error e)] <+: calls →
      (cls.allocate (run cls l before).pool (.error e)).2 = (run cls l before).pool) :
    KeepsSlots cls l calls := by
  constructor
  · intro before e hbefore
    rw [run_snoc, step_throw (h before e hbefore)]
  · intro before hbefore
    apply Inv.accounted
    apply inv_run_of_unchanged
    intro earlier e hearlier
    exact h earlier e (hearlier.trans hbefore)

theorem memoryPool1_keepsSlots (l : Storage) (calls : List (PoolCall E T)) :
    KeepsSlots .memoryPool1 l calls := by
  apply keepsSlots_of_unchanged
  intro before e _
  exact PoolClass.memoryPool1_allocate_error

/-- **A `MemoryPool` keeps its slots over a run exactly if no constructor throws
while a slot is free.** -/
theorem memoryPool_keepsSlots_iff (l : Storage) (calls : List (PoolCall E T)) :
    KeepsSlots .memoryPool l calls ↔
      ∀ before e, before ++ [.allocate (.error e)] <+: calls →
        MemoryPool.available (run .memoryPool l before).pool = 0 := by
  constructor
  · intro h before e hbefore
    apply memoryPool_throw_iff.mp
    rw [← run_snoc]
    exact h.unchanged before e hbefore
  · intro hfull
    apply keepsSlots_of_unchanged
    intro before e hbefore
    rw [PoolClass.allocate_full (hfull before e hbefore)]

/-- One slot and one constructor that throws: then the pool has no slot left, and
no object. -/
theorem memoryPool_not_keepsSlots :
    ¬ KeepsSlots (T := Nat) .memoryPool
      ⟨4096, 16, 1, by decide, by decide, by decide, by decide⟩ [.allocate (.error ())] := by
  intro h
  have haccounted := h.accounted [.allocate (.error ())] List.prefix_rfl
  revert haccounted
  decide

end PoolRun

end UltraHft.Core
