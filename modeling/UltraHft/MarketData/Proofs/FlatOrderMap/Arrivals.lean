import UltraHft.MarketData.Proofs.FlatOrderMap.Cells

/-!
# The occupied slots in order of arrival

`Arrivals` lists the occupied slots in the order in which they were filled.  It
asks for no unbroken probe paths, so a key may occur twice once an erasure has
stranded its first entry; the later entry is then nearer to the natural slot,
and it is the one that a probe meets.

An insertion appends to the list.  An erasure deletes from it as long as the
backward shift moves nothing; a shift that moves an entry leaves a listed slot
unoccupied.
-/

namespace UltraHft.MarketData.FlatOrderMap

open UltraHft.Lib
open UltraHft.Lib.Cyclic (dist IsFirst)

structure Arrivals (m : FlatOrderMap) (ptrs : List Nat) : Prop where
  sized : Sized m
  mem : ∀ p, p ∈ ptrs ↔ p < m.capacity_ ∧ (m.slots p).occupied = true
  nodup : ptrs.Nodup
  keyed : ∀ p ∈ ptrs, (m.slots p).key = (m.slots p).order.orderId
  recent : ptrs.Pairwise fun p q => (m.slots p).key = (m.slots q).key →
    dist m.capacity_ (m.home (m.slots q)) q < dist m.capacity_ (m.home (m.slots p)) p
  size : m.size_ = ptrs.length

namespace Arrivals

variable {m : FlatOrderMap} {ptrs l₁ l₂ : List Nat} {key : UInt64} {j p : Nat}

theorem exists_free (h : Arrivals m ptrs) (hroom : ptrs.length < m.capacity_) :
    ∃ e < m.capacity_, (m.slots e).occupied = false := by
  by_contra hfull
  push Not at hfull
  have hsub : Finset.range m.capacity_ ⊆ ptrs.toFinset := by
    intro p hp
    rw [Finset.mem_range] at hp
    rw [List.mem_toFinset, h.mem]
    exact ⟨hp, by simpa using hfull p hp⟩
  have hcard := (Finset.card_le_card hsub).trans (List.toFinset_card_le ptrs)
  rw [Finset.card_range] at hcard
  omega

theorem notMem_of_free (h : Arrivals m ptrs) (hfree : (m.slots j).occupied = false) :
    j ∉ ptrs := by
  intro hmem
  rw [((h.mem j).mp hmem).2] at hfree
  cases hfree

theorem ne_of_mem_rest (h : Arrivals m (l₁ ++ p :: l₂)) {q : Nat} (hq : q ∈ l₁ ++ l₂) :
    q ≠ p := by
  intro heq
  exact (List.nodup_middle.mp h.nodup).notMem (heq ▸ hq)

theorem probe_returns (h : Arrivals m ptrs) (hroom : ptrs.length < m.capacity_)
    (key : UInt64) : ∃ j, m.probe key = some j := by
  obtain ⟨e, he, hfree⟩ := h.exists_free hroom
  exact FlatOrderMap.probe_returns h.sized ⟨e, he, .inl hfree⟩

theorem beyond (h : Arrivals m ptrs) (hj : m.probe key = some j) (hp : p ∈ ptrs)
    (hkey : (m.slots p).key = key) (hpj : p ≠ j) :
    dist m.capacity_ (m.hash key) j < dist m.capacity_ (m.hash key) p := by
  have hfirst := (probe_eq_some_iff h.sized).mp hj
  obtain ⟨hplt, hocc⟩ := (h.mem p).mp hp
  have hhash := h.sized.hash_lt key
  by_contra hle
  have hne : dist m.capacity_ (m.hash key) p ≠ dist m.capacity_ (m.hash key) j := fun heq =>
    hpj (Cyclic.dist_inj hhash hplt hfirst.1 heq)
  apply hfirst.2.2 p hplt (by omega)
  rw [← probeStops_eq_stops hplt, probeStops_iff]
  exact ⟨hplt, .inr hkey⟩

/-- A probe that meets an entry meets the latest one under its key. -/
theorem latest (h : Arrivals m ptrs) (hj : m.probe key = some j)
    (hocc : (m.slots j).occupied = true) :
    ∃ l₁ l₂, ptrs = l₁ ++ j :: l₂ ∧ (m.slots j).key = key ∧
      ∀ q ∈ l₂, (m.slots q).key ≠ key := by
  have hjlt := probe_lt h.sized hj
  have hjkey := probe_key h.sized hj hocc
  obtain ⟨l₁, l₂, rfl⟩ := List.append_of_mem ((h.mem j).mpr ⟨hjlt, hocc⟩)
  refine ⟨l₁, l₂, rfl, hjkey, ?_⟩
  intro q hq hqkey
  have hrecent := (List.pairwise_cons.mp (List.pairwise_append.mp h.recent).2.1).1 q hq
    (hjkey.trans hqkey.symm)
  have hqj : q ≠ j := by
    rintro rfl
    exact (List.nodup_cons.mp (List.nodup_append.mp h.nodup).2.1).1 hq
  have hbeyond := h.beyond hj (by simp [hq]) hqkey hqj
  rw [home, home, hqkey, hjkey] at hrecent
  omega

theorem withHeap (h : Arrivals m ptrs) {hp : Heap}
    (hid : ∀ i, (hp i).orderId = (m.heap i).orderId) : Arrivals (m.withHeap hp) ptrs := by
  refine ⟨⟨h.sized.pow2, h.sized.mask⟩, h.mem, h.nodup, ?_, h.recent, h.size⟩
  intro p hmem
  exact (h.keyed p hmem).trans (hid p).symm

theorem slots_insert {order : Order} {i : Nat} (hij : i ≠ j) :
    ({ m.setSlot j { key, order, occupied := true } with size_ := sizeT (m.size_ + 1) } :
      FlatOrderMap).slots i = m.slots i :=
  Function.update_of_ne hij ..

theorem insert (h : Arrivals m ptrs) (hroom : ptrs.length < m.capacity_)
    (hj : m.probe key = some j) (hfree : (m.slots j).occupied = false) {order : Order}
    (hid : order.orderId = key) :
    Arrivals { m.setSlot j { key, order, occupied := true } with
      size_ := sizeT (m.size_ + 1) } (ptrs ++ [j]) := by
  have hjlt := probe_lt h.sized hj
  have hne : ∀ {p}, p ∈ ptrs → p ≠ j := fun hp heq => h.notMem_of_free hfree (heq ▸ hp)
  refine ⟨⟨h.sized.pow2, h.sized.mask⟩, ?_, ?_, ?_, ?_, ?_⟩
  · intro p
    by_cases hpj : p = j
    · subst hpj
      simp [setSlot, hjlt]
    · rw [slots_insert hpj, List.mem_append, h.mem]
      simp [setSlot, hpj]
  · rw [List.nodup_append]
    refine ⟨h.nodup, List.nodup_singleton j, ?_⟩
    intro p hp q hq
    rw [List.mem_singleton.mp hq]
    exact hne hp
  · intro p hp
    by_cases hpj : p = j
    · subst hpj
      simp [setSlot, hid]
    · rw [slots_insert hpj]
      exact h.keyed p ((List.mem_append.mp hp).resolve_right (by simpa using hpj))
  · rw [List.pairwise_append]
    refine ⟨?_, List.pairwise_singleton .., ?_⟩
    · apply h.recent.imp_of_mem
      intro p q hp hq hpq
      rw [slots_insert (hne hp), slots_insert (hne hq)]
      exact hpq
    · intro p hp q hq hkey
      obtain rfl := List.mem_singleton.mp hq
      rw [slots_insert (hne hp)] at hkey ⊢
      have hpk : (m.slots p).key = key := by simpa [setSlot] using hkey
      have hbeyond := h.beyond hj hp hpk (hne hp)
      simpa [home, setSlot, hpk, FlatOrderMap.hash] using hbeyond
  · have hcap := h.sized.capacity_le
    rw [List.length_append, List.length_singleton, ← h.size]
    exact sizeT_of_lt (by have := h.size; omega)

/-! ## Erasure -/

theorem probe_erased (h : Arrivals m (l₁ ++ p :: l₂)) : p < m.capacity_ ∧
    (m.slots p).occupied = true :=
  (h.mem p).mp (by simp)

/-- What the backward shift from the erased slot does, to the slots of the
other entries. -/
theorem shift_still_or_moved (h : Arrivals m (l₁ ++ p :: l₂))
    (hroom : (l₁ ++ p :: l₂).length < m.capacity_) {slots : Nat → Slot}
    (hs : m.backwardShift p = some slots) :
    ¬ OpenAddressing.Relocates m.capacity_ m.home m.cells p ∧ cellsOf slots = m.vacated p ∨
      OpenAddressing.Relocates m.capacity_ m.home m.cells p ∧
        ∃ q < m.capacity_, m.vacated p q ≠ none ∧ cellsOf slots q = none := by
  obtain ⟨hplt, hocc⟩ := h.probe_erased
  obtain ⟨e, he, hfree⟩ := h.exists_free hroom
  have hep : e ≠ p := by
    rintro rfl
    rw [hocc] at hfree
    cases hfree
  have hoff : ∀ q < m.capacity_, 0 < dist m.capacity_ p q → m.vacated p q = m.cells q := by
    intro q hq hpos
    rw [vacated, Function.update_of_ne]
    rintro rfl
    rw [Cyclic.dist_self hq] at hpos
    omega
  rw [← OpenAddressing.relocates_congr hoff]
  apply OpenAddressing.shift_still_or_moved hplt he hep (by simp [vacated])
    (by simpa [vacated, Function.update_of_ne hep] using cells_eq_none.mpr hfree)
    (backwardShift_run h.sized hplt hs)

theorem erase_still (h : Arrivals m (l₁ ++ p :: l₂))
    (hroom : (l₁ ++ p :: l₂).length < m.capacity_) (hp : m.probe key = some p)
    (hno : ¬ OpenAddressing.Relocates m.capacity_ m.home m.cells p) :
    ∃ m', m.erase key = some (true, m') ∧ Arrivals m' (l₁ ++ l₂) ∧
      m'.capacity_ = m.capacity_ ∧ m'.mask_ = m.mask_ ∧ m'.cells = m.vacated p := by
  obtain ⟨hplt, hocc⟩ := h.probe_erased
  obtain ⟨slots, hs⟩ := backwardShift_returns h.sized hplt
  have hcells : cellsOf slots = m.vacated p := by
    rcases h.shift_still_or_moved hroom hs with ⟨-, hstill⟩ | ⟨hrel, -⟩
    · exact hstill
    · exact (hno hrel).elim
  have hsame : ∀ q ∈ l₁ ++ l₂, slots q = m.slots q := by
    intro q hq
    have hqp := h.ne_of_mem_rest hq
    have hocc' := ((h.mem q).mp (List.mem_append.mpr
      ((List.mem_append.mp hq).imp id (List.mem_cons_of_mem p)))).2
    have hcell : cellsOf slots q = some (m.slots q) := by
      rw [hcells, vacated, Function.update_of_ne hqp]
      exact cells_eq_some.mpr ⟨hocc', rfl⟩
    exact (cellsOf_eq_some.mp hcell).2
  refine ⟨_, erase_of_occupied hp hocc hs, ?_, rfl, rfl, hcells⟩
  have hsub : (l₁ ++ l₂).Sublist (l₁ ++ p :: l₂) :=
    (List.Sublist.refl l₁).append (List.sublist_cons_self p l₂)
  refine ⟨⟨h.sized.pow2, h.sized.mask⟩, ?_, h.nodup.sublist hsub, ?_, ?_, ?_⟩
  · intro q
    have hocc' : (slots q).occupied = true ↔ q ≠ p ∧ (m.slots q).occupied = true := by
      rw [← Bool.not_eq_false, ← cellsOf_eq_none, hcells, vacated]
      by_cases hqp : q = p
      · simp [hqp]
      · rw [Function.update_of_ne hqp, cells_eq_none]
        simp [hqp]
    change q ∈ l₁ ++ l₂ ↔ q < m.capacity_ ∧ (slots q).occupied = true
    rw [hocc', and_left_comm, ← h.mem]
    constructor
    · intro hq
      exact ⟨h.ne_of_mem_rest hq, hsub.subset hq⟩
    · rintro ⟨hqp, hq⟩
      simpa [hqp] using hq
  · intro q hq
    change (slots q).key = (slots q).order.orderId
    rw [hsame q hq]
    exact h.keyed q (hsub.subset hq)
  · apply (h.recent.sublist hsub).imp_of_mem
    intro q r hq hr hqr
    change (slots q).key = (slots r).key →
      dist m.capacity_ (m.home (slots r)) r < dist m.capacity_ (m.home (slots q)) q
    rw [hsame q hq, hsame r hr]
    exact hqr
  · change sizePred m.size_ = (l₁ ++ l₂).length
    have hlen : (l₁ ++ p :: l₂).length = (l₁ ++ l₂).length + 1 := by simp; omega
    have hcap := h.sized.capacity_le
    rw [sizePred_of_pos (by rw [h.size]; omega) (by rw [h.size]; omega), h.size, hlen]
    rfl

/-- Erasing an entry when the shift moves another: some slot on the list is
unoccupied afterwards, though every other entry is still stored somewhere. -/
theorem erase_moved (h : Arrivals m (l₁ ++ p :: l₂))
    (hroom : (l₁ ++ p :: l₂).length < m.capacity_) (hp : m.probe key = some p)
    (hrel : OpenAddressing.Relocates m.capacity_ m.home m.cells p) :
    ∃ m', m.erase key = some (true, m') ∧ m'.capacity_ = m.capacity_ ∧
      (∃ q ∈ l₁ ++ l₂, (m'.slots q).occupied = false) ∧
      ∀ q ∈ l₁ ++ l₂, ∃ q' < m.capacity_, (m'.slots q').occupied = true ∧
        m'.slots q' = m.slots q := by
  obtain ⟨hplt, hocc⟩ := h.probe_erased
  obtain ⟨slots, hs⟩ := backwardShift_returns h.sized hplt
  have hmem : ∀ q, q ∈ l₁ ++ l₂ ↔
      q < m.capacity_ ∧ m.vacated p q = some (m.slots q) := by
    intro q
    have hq := h.mem q
    by_cases hqp : q = p
    · have hout := (List.nodup_middle.mp h.nodup).notMem
      rw [hqp, vacated, Function.update_self]
      simpa using hout
    · have hin : q ∈ l₁ ++ l₂ ↔ q ∈ l₁ ++ p :: l₂ := by simp [hqp]
      rw [hin, hq, vacated, Function.update_of_ne hqp, cells_eq_some]
      simp
  refine ⟨_, erase_of_occupied hp hocc hs, rfl, ?_, ?_⟩
  · rcases h.shift_still_or_moved hroom hs with ⟨hno, -⟩ | ⟨-, q, hq, hsome, hnone⟩
    · exact (hno hrel).elim
    · refine ⟨q, (hmem q).mpr ⟨hq, ?_⟩, cellsOf_eq_none.mp hnone⟩
      have hqp : q ≠ p := by
        rintro rfl
        simp [vacated] at hsome
      rw [vacated, Function.update_of_ne hqp] at hsome ⊢
      obtain ⟨s, hs'⟩ := Option.ne_none_iff_exists'.mp hsome
      rw [hs', (cells_eq_some.mp hs').2]
  · intro q hq
    obtain ⟨hqlt, hcell⟩ := (hmem q).mp hq
    obtain ⟨π, hπ, hcells⟩ := backwardShift_rearranges h.sized hplt hs
    have hcell' : cellsOf slots (π.symm q) = some (m.slots q) := by
      rw [hcells, Function.comp_apply, Equiv.apply_symm_apply, hcell]
    refine ⟨π.symm q, ?_, (cellsOf_eq_some.mp hcell').1, (cellsOf_eq_some.mp hcell').2⟩
    rw [← hπ, Equiv.apply_symm_apply]
    exact hqlt

end Arrivals

end UltraHft.MarketData.FlatOrderMap
