import UltraHft.MarketData.Proofs.FlatOrderMap.MapRuns

/-!
# When the operations return

The probe loops of `insert`, `find` and `erase` leave at an empty slot or at the
key and have no bound of their own.  An operation returns exactly when the table
offers its key such an exit; the backward shift always returns.
-/

namespace UltraHft.MarketData.FlatOrderMap

open UltraHft.Lib

inductive KeyCall where
  | insert (key : UInt64) (order : Order)
  | find (key : UInt64)
  | erase (key : UInt64)
  deriving DecidableEq

namespace KeyCall

def key : KeyCall → UInt64
  | insert key _ => key
  | find key => key
  | erase key => key

def run (m : FlatOrderMap) : KeyCall → Option FlatOrderMap
  | insert key order => (m.insert key order).map Prod.snd
  | find key => (m.find key).map fun _ => m
  | erase key => (m.erase key).map Prod.snd

def apply (s : Contents) : KeyCall → Contents
  | insert key order => s.insert key order
  | find _ => s
  | erase key => s.erase key

/-- The number of live keys never exceeds `capacity()`. -/
def WithinCapacity (capacity : UInt64) (calls : List KeyCall) : Prop :=
  ∀ pre ∈ calls.inits, (pre.foldl apply ∅).keys.card ≤ (new capacity).capacity_

instance (capacity : UInt64) (calls : List KeyCall) :
    Decidable (WithinCapacity capacity calls) :=
  inferInstanceAs (Decidable (∀ _ ∈ _, _))

end KeyCall

section Returns

variable {m m' : FlatOrderMap} {key : UInt64} {order : Order} {j : Nat}

/-- The tables differ in the contents of their slots at most. -/
structure SameShape (m m' : FlatOrderMap) : Prop where
  capacity : m'.capacity_ = m.capacity_
  mask : m'.mask_ = m.mask_

@[refl] theorem SameShape.refl (m : FlatOrderMap) : SameShape m m := ⟨rfl, rfl⟩

theorem SameShape.trans {m'' : FlatOrderMap} (h : SameShape m m') (h' : SameShape m' m'') :
    SameShape m m'' :=
  ⟨h'.capacity.trans h.capacity, h'.mask.trans h.mask⟩

theorem SameShape.constructed (h : SameShape m m') (hm : Constructed m) : Constructed m' := by
  rcases hm with hzero | hm
  · exact .inl (h.capacity.trans hzero)
  · right
    constructor
    · rw [h.capacity]
      exact hm.pow2
    · rw [h.mask, h.capacity]
      exact hm.mask

theorem new_constructed (capacity : UInt64) : Constructed (new capacity) := by
  rcases Nat.eq_zero_or_pos (new capacity).capacity_ with hzero | hpos
  · exact .inl hzero
  · exact .inr (new_sized hpos)

theorem sized_of_probe (hm : Constructed m) (hj : m.probe key = some j) : Sized m := by
  rcases hm with hzero | hm
  · have hprobe : m.probe key = none := by simp [probe, hzero]
    rw [hprobe] at hj
    cases hj
  · exact hm

theorem insert_returns (hj : m.probe key = some j) (order : Order) :
    ∃ r, m.insert key order = some r ∧ SameShape m r.2 := by
  cases hocc : (m.slots j).occupied with
  | false => exact ⟨_, insert_of_free hj hocc order, ⟨rfl, rfl⟩⟩
  | true => exact ⟨_, insert_of_occupied hj hocc order, ⟨rfl, rfl⟩⟩

theorem find_returns (hj : m.probe key = some j) : ∃ ptr, m.find key = some ptr := by
  cases hocc : (m.slots j).occupied with
  | false => exact ⟨_, find_of_free hj hocc⟩
  | true => exact ⟨_, find_of_occupied hj hocc⟩

theorem erase_returns (hm : Constructed m) (hj : m.probe key = some j) :
    ∃ r, m.erase key = some r ∧ SameShape m r.2 := by
  cases hocc : (m.slots j).occupied with
  | false => exact ⟨_, erase_of_free hj hocc, SameShape.refl _⟩
  | true =>
      have hsized := sized_of_probe hm hj
      have ⟨slots, hs⟩ := backwardShift_returns hsized (probe_lt hsized hj)
      exact ⟨_, erase_of_occupied hj hocc hs, ⟨rfl, rfl⟩⟩

theorem insert_hangs (h : m.probe key = none) : m.insert key order = none := by
  simp [insert, h]

theorem find_hangs (h : m.probe key = none) : m.find key = none := by
  simp [find, h]

theorem erase_hangs (h : m.probe key = none) : m.erase key = none := by
  simp [erase, h]

/-- A call returns exactly when its probe does, and leaves the shape alone. -/
theorem KeyCall.run_cases (hm : Constructed m) (call : KeyCall) :
    (∃ m', call.run m = some m' ∧ SameShape m m' ∧ HasExit m call.key) ∨
      (call.run m = none ∧ ¬ HasExit m call.key) := by
  cases hj : m.probe call.key with
  | none =>
      right
      constructor
      · cases call with
        | insert key order => exact Option.map_eq_none_iff.mpr (insert_hangs hj)
        | find key => exact Option.map_eq_none_iff.mpr (find_hangs hj)
        | erase key => exact Option.map_eq_none_iff.mpr (erase_hangs hj)
      · rw [← probe_isSome_iff hm, hj]
        simp
  | some j =>
      left
      have hexit := hasExit_of_probe (sized_of_probe hm hj) hj
      cases call with
      | insert key order =>
          have ⟨r, hr, hshape⟩ := insert_returns hj order
          exact ⟨r.2, Option.map_eq_some_iff.mpr ⟨r, hr, rfl⟩, hshape, hexit⟩
      | find key =>
          have ⟨ptr, hptr⟩ := find_returns hj
          exact ⟨m, Option.map_eq_some_iff.mpr ⟨ptr, hptr, rfl⟩, SameShape.refl m, hexit⟩
      | erase key =>
          have ⟨r, hr, hshape⟩ := erase_returns hm hj
          exact ⟨r.2, Option.map_eq_some_iff.mpr ⟨r, hr, rfl⟩, hshape, hexit⟩

theorem keyCalls_return_iff (capacity : UInt64) (calls : List KeyCall) :
    (∃ m, Runs.exec KeyCall.run (new capacity) calls = some m) ↔
      ∀ pre call, pre ++ [call] <+: calls →
        ∀ m, Runs.exec KeyCall.run (new capacity) pre = some m → HasExit m call.key := by
  apply Runs.exec_returns_iff (fun _ m => Constructed m)
    (fun m (call : KeyCall) => HasExit m call.key) (new_constructed capacity)
  · intro pre call m m' hm hrun
    rcases call.run_cases hm with ⟨m'', hrun', hshape, _⟩ | ⟨hnone, _⟩
    · obtain rfl : m'' = m' := Option.some.inj (hrun'.symm.trans hrun)
      exact hshape.constructed hm
    · rw [hnone] at hrun
      cases hrun
  · intro pre call m _ hm
    rcases call.run_cases hm with ⟨m', hrun, _, hexit⟩ | ⟨hnone, hno⟩
    · exact iff_of_true ⟨m', hrun⟩ hexit
    · exact iff_of_false (by simp [hnone]) hno

end Returns

end UltraHft.MarketData.FlatOrderMap
