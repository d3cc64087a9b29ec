import UltraHft.Lib.OpenAddressing.Contents
import UltraHft.MarketData.Proofs.FlatOrderMap.Termination

/-!
# What an erasure takes out

The occupied slots of a table as one collection.  Whatever the table holds, and
however full it is, erasing an entry that the probe finds ends and takes out that
entry and no other.
-/

namespace UltraHft.MarketData.FlatOrderMap

open UltraHft.Lib

variable {m : FlatOrderMap} {key : UInt64} {j : Nat}

def held (m : FlatOrderMap) : Multiset Slot := OpenAddressing.contents m.capacity_ m.cells

def pairs (m : FlatOrderMap) : Multiset (UInt64 × Order) :=
  m.held.map fun s => (s.key, s.order)

theorem held_split (hj : j < m.capacity_) (hocc : (m.slots j).occupied = true) :
    m.held = m.slots j ::ₘ OpenAddressing.contents m.capacity_ (m.vacated j) :=
  OpenAddressing.contents_vacate hj (cells_eq_some.mpr ⟨hocc, rfl⟩)

theorem held_erase (hm : Sized m) (hj : m.probe key = some j)
    (hocc : (m.slots j).occupied = true) :
    ∃ m', m.erase key = some (true, m') ∧ m.held = m.slots j ::ₘ m'.held ∧
      SameShape m m' ∧ m'.size_ = sizePred m.size_ := by
  have hlt := probe_lt hm hj
  obtain ⟨slots, hslots⟩ := backwardShift_returns hm hlt
  refine ⟨_, erase_of_occupied hj hocc hslots, ?_, ⟨rfl, rfl⟩, rfl⟩
  calc m.held
      = m.slots j ::ₘ OpenAddressing.contents m.capacity_ (m.vacated j) := held_split hlt hocc
    _ = m.slots j ::ₘ OpenAddressing.contents m.capacity_ (cellsOf slots) := by
      rw [OpenAddressing.contents_rearrangement (backwardShift_rearranges hm hlt hslots)]

theorem sizeT_sizePred_succ (n : Nat) : sizeT (sizePred n + 1) = sizeT n := by
  unfold sizePred sizeT
  omega

/-- Erasing what the probe finds returns, and leaves all pairs but that one, in a
table of the same shape whose size is one less. -/
theorem erase_takes_one (m : FlatOrderMap) (hm : Sized m) (key : UInt64) (j : Nat)
    (hj : m.probe key = some j) (hocc : (m.slots j).occupied = true) :
    ∃ m', m.erase key = some (true, m') ∧
      m.pairs = (key, (m.slots j).order) ::ₘ m'.pairs ∧ SameShape m m' ∧
      sizeT (m'.size_ + 1) = sizeT m.size_ ∧
      (0 < m.size_ → m.size_ < 2 ^ 64 → m'.size_ + 1 = m.size_) := by
  obtain ⟨m', herase, hheld, hshape, hsize⟩ := held_erase hm hj hocc
  refine ⟨m', herase, ?_, hshape, ?_, ?_⟩
  · rw [pairs, hheld, Multiset.map_cons, probe_key hm hj hocc]
    rfl
  · rw [hsize, sizeT_sizePred_succ]
  · intro hpos hfits
    rw [hsize, sizePred_of_pos hpos hfits]
    exact Nat.succ_pred_eq_of_pos hpos

def fullPair : FlatOrderMap where
  slots := fun i => { key := if i = 0 then 6 else 7, occupied := true }
  capacity_ := 2
  mask_ := 1
  size_ := 2

theorem sized_fullPair : Sized fullPair := ⟨⟨1, by decide, rfl⟩, rfl⟩

theorem erase_takes_one_fullPair : ∃ m', fullPair.erase 7 = some (true, m') ∧
    fullPair.pairs = (7, (fullPair.slots 1).order) ::ₘ m'.pairs ∧ SameShape fullPair m' ∧
    sizeT (m'.size_ + 1) = sizeT fullPair.size_ ∧
    (0 < fullPair.size_ → fullPair.size_ < 2 ^ 64 → m'.size_ + 1 = fullPair.size_) :=
  erase_takes_one fullPair sized_fullPair 7 1 (by decide) rfl

end UltraHft.MarketData.FlatOrderMap
