import Mathlib.Data.Finmap
import UltraHft.Lib.Runs
import UltraHft.MarketData.Proofs.FlatOrderMap.Cells

/-!
# `FlatOrderMap` as a finite map

The abstract view is a finite map from keys to orders.  `Indexed` relates the
slot array to it; insertion, lookup and clearing keep the relation, and so does
an erasure that strands no entry.  An erasure that strands one loses a live key
at once, so a run behaves as a map throughout exactly when none of its erasures
strands.
-/

namespace UltraHft.MarketData.FlatOrderMap

open UltraHft.Lib
open UltraHft.Lib.OpenAddressing

abbrev Contents := Finmap fun _ : UInt64 => Order

def findOrder (m : FlatOrderMap) (key : UInt64) : Option (Option Order) :=
  (m.find key).map (Option.map m.heap)

structure Indexed (m : FlatOrderMap) (s : Contents) : Prop where
  sized : Sized m
  chained : Chained m.capacity_ m.home m.cells
  unique : KeysUnique m.capacity_ Slot.key m.cells
  stored : ∀ k o, s.lookup k = some o ↔
    ∃ p < m.capacity_, ∃ sl, m.cells p = some sl ∧ sl.key = k ∧ sl.order = o
  size : m.size_ = s.keys.card

/-- The erasure of `key` leaves another entry behind its empty natural slot. -/
def Stranding (m : FlatOrderMap) (key : UInt64) : Prop :=
  ∃ idx < m.capacity_, (m.slots idx).occupied = true ∧ (m.slots idx).key = key ∧
    Strands m.capacity_ m.home m.cells idx

namespace Indexed

variable {m : FlatOrderMap} {s : Contents} {key : UInt64}

theorem mem_iff (h : Indexed m s) : key ∈ s ↔
    ∃ p < m.capacity_, ∃ sl, m.cells p = some sl ∧ sl.key = key := by
  rw [← Finmap.lookup_isSome, Option.isSome_iff_exists]
  constructor
  · rintro ⟨o, ho⟩
    obtain ⟨p, hp, sl, hsl, hkey, -⟩ := (h.stored key o).mp ho
    exact ⟨p, hp, sl, hsl, hkey⟩
  · rintro ⟨p, hp, sl, hsl, hkey⟩
    exact ⟨sl.order, (h.stored key _).mpr ⟨p, hp, sl, hsl, hkey, rfl⟩⟩

theorem exists_empty (h : Indexed m s) (hroom : s.keys.card < m.capacity_) :
    ∃ e < m.capacity_, m.cells e = none := by
  by_contra hfull
  push Not at hfull
  have hocc : ∀ p < m.capacity_, m.cells p = some (m.slots p) := by
    intro p hp
    obtain ⟨sl, hsl⟩ := Option.ne_none_iff_exists'.mp (hfull p hp)
    rw [hsl, ← (cells_eq_some.mp hsl).2]
  have hcard : (Finset.range m.capacity_).card ≤ s.keys.card := by
    apply Finset.card_le_card_of_injOn fun p => (m.slots p).key
    · intro p hp
      rw [Finset.mem_coe, Finset.mem_range] at hp
      rw [Finset.mem_coe, Finmap.mem_keys, h.mem_iff]
      exact ⟨p, hp, _, hocc p hp, rfl⟩
    · intro p hp q hq hkey
      rw [Finset.mem_coe, Finset.mem_range] at hp hq
      exact h.unique p hp q hq _ _ (hocc p hp) (hocc q hq) hkey
  rw [Finset.card_range] at hcard
  omega

theorem probe_returns (h : Indexed m s) (hroom : s.keys.card < m.capacity_)
    (key : UInt64) : ∃ j, m.probe key = some j := by
  obtain ⟨e, he, hemp⟩ := h.exists_empty hroom
  exact FlatOrderMap.probe_returns h.sized ⟨e, he, .inl (cells_eq_none.mp hemp)⟩

theorem probe_eq (h : Indexed m s) {p j : Nat} {sl : Slot} (hp : p < m.capacity_)
    (hsl : m.cells p = some sl) (hj : m.probe sl.key = some j) : j = p :=
  entry_of_isFirst (home_lt h.sized) h.chained h.unique hp hsl
    ((probe_eq_some_iff h.sized).mp hj)

theorem probe_empty (h : Indexed m s) {j : Nat} (hkey : key ∉ s)
    (hj : m.probe key = some j) : m.cells j = none := by
  apply empty_of_isFirst ((probe_eq_some_iff h.sized).mp hj)
  intro p hp sl hsl heq
  exact hkey (h.mem_iff.mpr ⟨p, hp, sl, hsl, heq⟩)

theorem findOrder_eq (h : Indexed m s) (hroom : s.keys.card < m.capacity_) :
    m.findOrder key = some (s.lookup key) := by
  obtain ⟨j, hj⟩ := h.probe_returns hroom key
  cases hlook : s.lookup key with
  | none =>
      have hemp := h.probe_empty (Finmap.lookup_eq_none.mp hlook) hj
      rw [findOrder, find_of_free hj (cells_eq_none.mp hemp)]
      rfl
  | some o =>
      obtain ⟨p, hp, sl, hsl, rfl, rfl⟩ := (h.stored key o).mp hlook
      obtain rfl := h.probe_eq hp hsl hj
      obtain ⟨hocc, rfl⟩ := cells_eq_some.mp hsl
      rw [findOrder, find_of_occupied hj hocc]
      rfl

theorem clear (h : Indexed m s) : Indexed m.clear ∅ := by
  have hcells : ∀ p, m.clear.cells p = none := fun p => rfl
  refine ⟨⟨h.sized.pow2, h.sized.mask⟩, ?_, ?_, ?_, ?_⟩
  · rintro p _ q _ ⟨a, ha, -⟩
    rw [hcells] at ha
    cases ha
  · intro p _ q _ a b ha
    rw [hcells] at ha
    cases ha
  · intro k o
    simp [hcells]
  · simp [FlatOrderMap.clear]

/-! ### Insertion -/

theorem stored_update (h : Indexed m s) {j : Nat} (hjlt : j < m.capacity_) (sl : Slot)
    (hhere : ∀ a, m.cells j = some a → a.key = sl.key)
    (hother : ∀ p < m.capacity_, p ≠ j → ∀ a, m.cells p = some a → a.key ≠ sl.key)
    (k : UInt64) (o : Order) : (s.insert sl.key sl.order).lookup k = some o ↔
      ∃ p < m.capacity_, ∃ a, Function.update m.cells j (some sl) p = some a ∧
        a.key = k ∧ a.order = o := by
  by_cases hk : k = sl.key
  · subst hk
    rw [Finmap.lookup_insert]
    constructor
    · intro ho
      exact ⟨j, hjlt, sl, Function.update_self .., rfl, Option.some.inj ho⟩
    · intro ⟨p, hp, a, ha, hkey, ho⟩
      by_cases hpj : p = j
      · rw [hpj, Function.update_self] at ha
        rw [← ho, ← Option.some.inj ha]
      · rw [Function.update_of_ne hpj] at ha
        exact (hother p hp hpj a ha hkey).elim
  · rw [Finmap.lookup_insert_of_ne _ hk, h.stored]
    refine exists_congr fun p => and_congr_right fun hp => exists_congr fun a => ?_
    by_cases hpj : p = j
    · -- neither what was in the slot nor what is there now has the key `k`
      subst hpj
      rw [Function.update_self]
      constructor
      · intro ⟨ha, hkey, _⟩
        exact (hk (hkey.symm.trans (hhere a ha))).elim
      · intro ⟨ha, hkey, _⟩
        rw [← Option.some.inj ha] at hkey
        exact (hk hkey.symm).elim
    · rw [Function.update_of_ne hpj]

theorem insert_new (h : Indexed m s) (hroom : s.keys.card < m.capacity_) {j : Nat}
    (hj : m.probe key = some j) (hemp : m.cells j = none) (order : Order) :
    Indexed { m.setSlot j { key, order, occupied := true } with size_ := sizeT (m.size_ + 1) }
      (s.insert key order) := by
  have hjlt := probe_lt h.sized hj
  have habs : key ∉ s := by
    intro hmem
    obtain ⟨p, hp, sl, hsl, rfl⟩ := h.mem_iff.mp hmem
    rw [h.probe_eq hp hsl hj, hsl] at hemp
    cases hemp
  have hother : ∀ p < m.capacity_, p ≠ j → ∀ a, m.cells p = some a → a.key ≠ key :=
    fun p hp _ a ha heq => habs (h.mem_iff.mpr ⟨p, hp, a, ha, heq⟩)
  constructor
  case sized => exact ⟨h.sized.pow2, h.sized.mask⟩
  case chained =>
    rw [cells_insert]
    exact h.chained.insert ((probe_eq_some_iff h.sized).mp hj)
  case unique =>
    rw [cells_insert]
    exact h.unique.insert hother
  case stored =>
    rw [cells_insert]
    apply h.stored_update hjlt { key, order, occupied := true } _ hother
    intro a ha
    rw [hemp] at ha
    cases ha
  case size =>
    have hkeys : (s.insert key order).keys = Insert.insert key s.keys := by
      ext k
      simp [Finmap.mem_keys, Finmap.mem_insert]
    have hle := h.sized.capacity_le
    have hsize := h.size
    rw [hkeys, Finset.card_insert_of_notMem (by rwa [Finmap.mem_keys]), ← h.size]
    change sizeT (m.size_ + 1) = m.size_ + 1
    exact Nat.mod_eq_of_lt (by omega)

theorem insert_present (h : Indexed m s) {j : Nat} {sl : Slot} (hj : m.probe key = some j)
    (hsl : m.cells j = some sl) (order : Order) :
    Indexed (m.setSlot j { sl with order }) (s.insert key order) := by
  have hjlt := probe_lt h.sized hj
  obtain ⟨hocc, rfl⟩ := cells_eq_some.mp hsl
  obtain rfl := probe_key h.sized hj hocc
  have hcells : (m.setSlot j { m.slots j with order }).cells =
      Function.update m.cells j (some { m.slots j with order }) := by
    have hupd := cellsOf_update m.slots j { m.slots j with order }
    rw [if_pos hocc] at hupd
    exact hupd
  have hother : ∀ p < m.capacity_, p ≠ j → ∀ a, m.cells p = some a →
      a.key ≠ (m.slots j).key :=
    fun p hp hpj a ha heq => hpj (h.unique p hp j hjlt a _ ha hsl heq)
  constructor
  case sized => exact ⟨h.sized.pow2, h.sized.mask⟩
  case chained =>
    rw [hcells]
    exact h.chained.replace hsl rfl
  case unique =>
    rw [hcells]
    exact h.unique.insert hother
  case stored =>
    rw [hcells]
    apply h.stored_update hjlt { m.slots j with order } _ hother
    intro a ha
    rw [(cells_eq_some.mp ha).2]
  case size =>
    have hmem : (m.slots j).key ∈ s := h.mem_iff.mpr ⟨j, hjlt, _, hsl, rfl⟩
    have hkeys : (s.insert (m.slots j).key order).keys = s.keys := by
      ext k
      simp only [Finmap.mem_keys, Finmap.mem_insert]
      constructor
      · intro hor
        exact hor.elim (fun heq => heq ▸ hmem) id
      · exact .inr
    rw [hkeys]
    exact h.size

theorem insert (h : Indexed m s) (hroom : s.keys.card < m.capacity_) (key : UInt64)
    (order : Order) :
    ∃ j m', m.insert key order = some (j, m') ∧ m'.capacity_ = m.capacity_ ∧
      Indexed m' (s.insert key order) := by
  obtain ⟨j, hj⟩ := h.probe_returns hroom key
  cases hocc : (m.slots j).occupied with
  | false =>
      refine ⟨j, _, insert_of_free hj hocc order, rfl, ?_⟩
      exact h.insert_new hroom hj (cells_eq_none.mpr hocc) order
  | true =>
      refine ⟨j, _, insert_of_occupied hj hocc order, rfl, ?_⟩
      exact h.insert_present hj (cells_eq_some.mpr ⟨hocc, rfl⟩) order

/-! ### Erasure -/

theorem erase_absent (h : Indexed m s) (hroom : s.keys.card < m.capacity_)
    (hkey : key ∉ s) : m.erase key = some (false, m) := by
  obtain ⟨j, hj⟩ := h.probe_returns hroom key
  exact erase_of_free hj (cells_eq_none.mp (h.probe_empty hkey hj))

theorem stored_erase (h : Indexed m s) {j : Nat} (hjlt : j < m.capacity_)
    (hocc : (m.slots j).occupied = true) {slots : Nat → Slot}
    (hs : m.backwardShift j = some slots) (k : UInt64) (o : Order) :
    (s.erase (m.slots j).key).lookup k = some o ↔
      ∃ p < m.capacity_, ∃ sl, cellsOf slots p = some sl ∧ sl.key = k ∧ sl.order = o := by
  obtain ⟨π, hπ, hcells⟩ := backwardShift_rearranges h.sized hjlt hs
  have hmove : (∃ p < m.capacity_, ∃ sl, cellsOf slots p = some sl ∧ sl.key = k ∧
      sl.order = o) ↔ ∃ p < m.capacity_, ∃ sl, m.vacated j p = some sl ∧ sl.key = k ∧
      sl.order = o := by
    rw [hcells]
    constructor
    · rintro ⟨p, hp, sl, hsl⟩
      exact ⟨π p, (hπ p).mpr hp, sl, hsl⟩
    · rintro ⟨p, hp, sl, hsl⟩
      refine ⟨π.symm p, ?_, sl, ?_⟩
      · rw [← hπ, Equiv.apply_symm_apply]
        exact hp
      · rw [Function.comp_apply, Equiv.apply_symm_apply]
        exact hsl
  have hcell : m.cells j = some (m.slots j) := cells_eq_some.mpr ⟨hocc, rfl⟩
  rw [hmove]
  by_cases hk : k = (m.slots j).key
  · subst hk
    rw [Finmap.lookup_erase]
    constructor
    · intro hnone
      cases hnone
    · rintro ⟨p, hp, sl, hsl, hkey, -⟩
      by_cases hpj : p = j
      · rw [hpj, vacated, Function.update_self] at hsl
        cases hsl
      · rw [vacated, Function.update_of_ne hpj] at hsl
        exact (hpj (h.unique p hp j hjlt sl _ hsl hcell hkey)).elim
  · rw [Finmap.lookup_erase_ne hk, h.stored]
    refine exists_congr fun p => and_congr_right fun hp => exists_congr fun sl => ?_
    by_cases hpj : p = j
    · subst hpj
      rw [hcell, vacated, Function.update_self]
      constructor
      · rintro ⟨hsl, hkey, -⟩
        rw [← Option.some.inj hsl] at hkey
        exact (hk hkey.symm).elim
      · rintro ⟨hsl, -⟩
        cases hsl
    · rw [vacated, Function.update_of_ne hpj]

theorem size_erase (h : Indexed m s) (hkey : key ∈ s) :
    sizePred m.size_ = (s.erase key).keys.card := by
  have hpos : 0 < s.keys.card :=
    Finset.card_pos.mpr ⟨key, by rwa [Finmap.mem_keys]⟩
  have hle : s.keys.card ≤ m.capacity_ := by
    by_contra hgt
    -- more keys than slots: two keys would share a slot
    have hslot : ∀ k ∈ s.keys, ∃ p ∈ Finset.range m.capacity_, (m.slots p).key = k := by
      intro k hk
      rw [Finmap.mem_keys] at hk
      obtain ⟨p, hp, sl, hsl, rfl⟩ := h.mem_iff.mp hk
      exact ⟨p, Finset.mem_range.mpr hp, by rw [(cells_eq_some.mp hsl).2]⟩
    have hsub : s.keys ⊆ (Finset.range m.capacity_).image fun p => (m.slots p).key := by
      intro k hk
      obtain ⟨p, hp, hpk⟩ := hslot k hk
      exact Finset.mem_image.mpr ⟨p, hp, hpk⟩
    have hcard := (Finset.card_le_card hsub).trans Finset.card_image_le
    rw [Finset.card_range] at hcard
    omega
  have hcap := h.sized.capacity_le
  rw [Finmap.keys_erase, Finset.card_erase_of_mem (by rwa [Finmap.mem_keys]), h.size,
    sizePred_of_pos hpos (by omega)]

theorem shifted (h : Indexed m s) (hroom : s.keys.card < m.capacity_) {j : Nat}
    (hjlt : j < m.capacity_) (hocc : (m.slots j).occupied = true) {slots : Nat → Slot}
    (hs : m.backwardShift j = some slots) :
    ∃ hole, Shifted m.capacity_ m.home (m.vacated j) j hole (cellsOf slots) := by
  obtain ⟨e, he, hemp⟩ := h.exists_empty hroom
  have hej : e ≠ j := by
    rintro rfl
    rw [cells_eq_none, hocc] at hemp
    cases hemp
  apply shift_shifted hjlt (home_lt h.sized) he hej (by simp [vacated])
    (by simpa [vacated, Function.update_of_ne hej] using hemp) ?_
    (backwardShift_run h.sized hjlt hs)
  rintro p hp q hq ⟨a, ha, hlt⟩ hnone
  by_contra hqj
  have hpj : p ≠ j := by
    rintro rfl
    simp [vacated] at ha
  rw [vacated, Function.update_of_ne hpj] at ha
  rw [vacated, Function.update_of_ne hqj] at hnone
  exact h.chained p hp q hq ⟨a, ha, hlt⟩ hnone

/-- The erased slot itself plays no part in where the hole settles. -/
theorem vacated_off {j : Nat} (hjlt : j < m.capacity_) :
    ∀ p < m.capacity_, 0 < Cyclic.dist m.capacity_ j p → m.vacated j p = m.cells p := by
  intro p hp hpos
  rw [vacated, Function.update_of_ne]
  rintro rfl
  rw [Cyclic.dist_self hjlt] at hpos
  omega

theorem stranding_iff (h : Indexed m s) {j : Nat} (hjlt : j < m.capacity_)
    (hocc : (m.slots j).occupied = true) :
    m.Stranding (m.slots j).key ↔
      Strands m.capacity_ m.home (m.vacated j) j := by
  constructor
  · rintro ⟨i, hi, hocci, hkey, hst⟩
    obtain rfl := h.unique i hi j hjlt _ _ (cells_eq_some.mpr ⟨hocci, rfl⟩)
      (cells_eq_some.mpr ⟨hocc, rfl⟩) hkey
    exact hst.congr (vacated_off hi)
  · intro hst
    exact ⟨j, hjlt, hocc, rfl, hst.congr fun p hp hpos => (vacated_off hjlt p hp hpos).symm⟩

/-- An erasure that strands nothing keeps the index; one that strands loses
a live key. -/
theorem erase_present (h : Indexed m s) (hroom : s.keys.card < m.capacity_)
    (hkey : key ∈ s) :
    ∃ m', m.erase key = some (true, m') ∧ m'.capacity_ = m.capacity_ ∧
      (¬ m.Stranding key → Indexed m' (s.erase key)) ∧
      (m.Stranding key → ∃ k ∈ s.erase key, m'.findOrder k = some none) := by
  obtain ⟨j, hjlt, sl, hsl, rfl⟩ := h.mem_iff.mp hkey
  obtain ⟨hocc, rfl⟩ := cells_eq_some.mp hsl
  obtain ⟨i, hi⟩ := h.probe_returns hroom (m.slots j).key
  obtain rfl := h.probe_eq hjlt hsl hi
  obtain ⟨slots, hs⟩ := backwardShift_returns h.sized hjlt
  obtain ⟨hole, hshift⟩ := h.shifted hroom hjlt hocc hs
  refine ⟨_, erase_of_occupied hi hocc hs, rfl, ?_, ?_⟩
  · intro hno
    rw [h.stranding_iff hjlt hocc] at hno
    refine ⟨⟨h.sized.pow2, h.sized.mask⟩, hshift.chained hno, ?_,
      h.stored_erase hjlt hocc hs, h.size_erase hkey⟩
    obtain ⟨π, hπ, hcells⟩ := backwardShift_rearranges h.sized hjlt hs
    change KeysUnique m.capacity_ Slot.key (cellsOf slots)
    rw [hcells]
    intro p hp q hq a b ha hb hab
    have hpi : π p ≠ i := by
      intro heq
      simp [vacated, heq] at ha
    have hqi : π q ≠ i := by
      intro heq
      simp [vacated, heq] at hb
    rw [Function.comp_apply, vacated, Function.update_of_ne hpi] at ha
    rw [Function.comp_apply, vacated, Function.update_of_ne hqi] at hb
    exact π.injective
      (h.unique _ ((hπ p).mpr hp) _ ((hπ q).mpr hq) a b ha hb hab)
  · intro hst
    rw [h.stranding_iff hjlt hocc] at hst
    obtain ⟨p, a, hp, hpos, ha, ha', hne, hnone⟩ := hshift.stranded hjlt hst
    rw [vacated_off hjlt p hp hpos] at ha
    have hpi : p ≠ i := by
      rintro rfl
      rw [Cyclic.dist_self hp] at hpos
      omega
    refine ⟨a.key, ?_, ?_⟩
    · rw [Finmap.mem_erase]
      exact ⟨fun heq => hpi (h.unique p hp i hjlt a _ ha hsl heq),
        h.mem_iff.mpr ⟨p, hp, a, ha, rfl⟩⟩
    · have hfree : (slots (m.hash a.key)).occupied = false := cellsOf_eq_none.mp hnone
      have hsized : Sized { m with slots, size_ := sizePred m.size_ } :=
        ⟨h.sized.pow2, h.sized.mask⟩
      have hprobe := probe_of_home_free hsized hfree
      rw [findOrder, find_of_free hprobe hfree]
      rfl

end Indexed

end UltraHft.MarketData.FlatOrderMap
