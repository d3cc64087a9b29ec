import UltraHft.Lib.OpenAddressing.Settle
import UltraHft.MarketData.Proofs.FlatOrderMap.Geometry

/-!
# The slot array as a ring of cells

An unoccupied slot keeps stale contents; `cells` forgets them.  Under this view
the probe loop and the backward shift of `FlatOrderMap` are, iteration by
iteration, those of the open-addressing library.
-/

namespace UltraHft.MarketData.FlatOrderMap

open UltraHft.Lib
open UltraHft.Lib.Cyclic (IsFirst)

def cellsOf (slots : Nat → Slot) (i : Nat) : Option Slot :=
  if (slots i).occupied then some (slots i) else none

def cells (m : FlatOrderMap) : Nat → Option Slot := cellsOf m.slots

def home (m : FlatOrderMap) (s : Slot) : Nat := m.hash s.key

theorem cellsOf_eq_none {slots : Nat → Slot} {i : Nat} :
    cellsOf slots i = none ↔ (slots i).occupied = false := by
  simp [cellsOf]

theorem cellsOf_eq_some {slots : Nat → Slot} {i : Nat} {s : Slot} :
    cellsOf slots i = some s ↔ (slots i).occupied = true ∧ slots i = s := by
  simp [cellsOf]

theorem cellsOf_update (slots : Nat → Slot) (i : Nat) (s : Slot) :
    cellsOf (Function.update slots i s) =
      Function.update (cellsOf slots) i (if s.occupied then some s else none) := by
  funext j
  by_cases hj : j = i
  · subst hj
    simp [cellsOf]
  · simp [cellsOf, Function.update_of_ne hj]

theorem cells_eq_none {m : FlatOrderMap} {i : Nat} :
    m.cells i = none ↔ (m.slots i).occupied = false := cellsOf_eq_none

theorem cells_eq_some {m : FlatOrderMap} {i : Nat} {s : Slot} :
    m.cells i = some s ↔ (m.slots i).occupied = true ∧ m.slots i = s := cellsOf_eq_some

theorem home_lt {m : FlatOrderMap} (h : Sized m) (s : Slot) : m.home s < m.capacity_ :=
  h.hash_lt s.key

/-! ## The probe loop -/

section Probe

variable {m : FlatOrderMap} {key : UInt64} {j : Nat}

theorem probeStops_iff :
    m.probeStops key j ↔
      j < m.capacity_ ∧ ((m.slots j).occupied = false ∨ (m.slots j).key = key) := by
  simp [probeStops]

theorem probeStops_eq_stops (hj : j < m.capacity_) :
    m.probeStops key j = OpenAddressing.stops Slot.key m.cells key j := by
  rw [Bool.eq_iff_iff, probeStops_iff, OpenAddressing.stops_iff]
  simp only [hj, true_and, cells_eq_some]
  constructor
  · rintro (hocc | hkey) s ⟨hs, rfl⟩
    · rw [hocc] at hs
      cases hs
    · exact hkey
  · intro h
    cases hocc : (m.slots j).occupied with
    | false => exact .inl rfl
    | true => exact .inr (h _ ⟨hocc, rfl⟩)

theorem probe_eq_some_iff (hm : Sized m) :
    m.probe key = some j ↔
      IsFirst m.capacity_ (OpenAddressing.stops Slot.key m.cells key) (m.hash key) j := by
  rw [probe, hm.next_eq, Cyclic.run_scan_iff_isFirst (hm.hash_lt key)]
  unfold IsFirst
  constructor
  · rintro ⟨hj, hstop, hbefore⟩
    refine ⟨hj, by rwa [← probeStops_eq_stops hj], ?_⟩
    intro q hq hlt
    rw [← probeStops_eq_stops hq]
    exact hbefore q hq hlt
  · rintro ⟨hj, hstop, hbefore⟩
    refine ⟨hj, by rwa [probeStops_eq_stops hj], ?_⟩
    intro q hq hlt
    rw [probeStops_eq_stops hq]
    exact hbefore q hq hlt

theorem probe_lt (hm : Sized m) (h : m.probe key = some j) : j < m.capacity_ :=
  ((probe_eq_some_iff hm).mp h).1

theorem probe_key (hm : Sized m) (h : m.probe key = some j)
    (hocc : (m.slots j).occupied = true) : (m.slots j).key = key :=
  OpenAddressing.stops_iff.mp ((probe_eq_some_iff hm).mp h).2.1 _
    (cells_eq_some.mpr ⟨hocc, rfl⟩)

theorem probe_of_home_free (hm : Sized m)
    (hfree : (m.slots (m.hash key)).occupied = false) : m.probe key = some (m.hash key) := by
  rw [probe_eq_some_iff hm]
  refine ⟨hm.hash_lt key, ?_, ?_⟩
  · rw [OpenAddressing.stops_iff, cells_eq_none.mpr hfree]
    simp
  · intro q _ hlt
    rw [Cyclic.dist_self (hm.hash_lt key)] at hlt
    omega

/-- The table offers the probe for `key` an exit. -/
def HasExit (m : FlatOrderMap) (key : UInt64) : Prop :=
  ∃ j < m.capacity_, (m.slots j).occupied = false ∨ (m.slots j).key = key

theorem probe_returns (hm : Sized m) (h : HasExit m key) : ∃ j, m.probe key = some j := by
  obtain ⟨j, hj, hexit⟩ := h
  have hstop : OpenAddressing.stops Slot.key m.cells key j := by
    rw [← probeStops_eq_stops hj, probeStops_iff]
    exact ⟨hj, hexit⟩
  obtain ⟨i, hi⟩ := Cyclic.exists_isFirst (hm.hash_lt key) ⟨j, hj, hstop⟩
  exact ⟨i, (probe_eq_some_iff hm).mpr hi⟩

theorem hasExit_of_probe (hm : Sized m) (h : m.probe key = some j) : HasExit m key := by
  have hfirst := (probe_eq_some_iff hm).mp h
  have hstop := hfirst.2.1
  rw [← probeStops_eq_stops hfirst.1, probeStops_iff] at hstop
  exact ⟨j, hstop⟩

/-- `none` is the right model of the probe loop: without an exit it goes round
the table forever, also in the table without slots. -/
theorem probe_hangs (h : ¬ HasExit m key) :
    Loop.Hangs (Loop.scan m.next (m.probeStops key)) (m.hash key) := by
  rw [Loop.hangs_scan_iff]
  intro d hstop
  exact h ⟨_, probeStops_iff.mp hstop⟩

def Constructed (m : FlatOrderMap) : Prop := m.capacity_ = 0 ∨ Sized m

theorem probe_isSome_iff (hm : Constructed m) :
    (m.probe key).isSome ↔ HasExit m key := by
  rcases hm with hzero | hm
  · have hprobe : m.probe key = none := by simp [probe, hzero]
    have hexit : ¬ HasExit m key := by
      rintro ⟨j, hj, -⟩
      omega
    simp [hprobe, hexit]
  · rw [Option.isSome_iff_exists]
    constructor
    · rintro ⟨j, hj⟩
      exact hasExit_of_probe hm hj
    · exact probe_returns hm

theorem probe_of_absent (hm : Sized m)
    (hroom : ∃ e < m.capacity_, (m.slots e).occupied = false)
    (habs : ∀ p < m.capacity_, (m.slots p).occupied = true → (m.slots p).key ≠ key) :
    ∃ j, m.probe key = some j ∧ (m.slots j).occupied = false := by
  obtain ⟨e, he, hfree⟩ := hroom
  obtain ⟨j, hj⟩ := probe_returns hm ⟨e, he, .inl hfree⟩
  refine ⟨j, hj, ?_⟩
  cases hocc : (m.slots j).occupied with
  | false => rfl
  | true => exact (habs j (probe_lt hm hj) hocc (probe_key hm hj hocc)).elim

/-! What the three operations do with the slot at which the probe stopped. -/

theorem insert_of_free (hj : m.probe key = some j) (hocc : (m.slots j).occupied = false)
    (order : Order) :
    m.insert key order = some (j, { m.setSlot j { key, order, occupied := true } with
      size_ := sizeT (m.size_ + 1) }) := by
  simp [insert, hj, hocc]

theorem cells_insert (order : Order) :
    cells { m.setSlot j { key, order, occupied := true } with size_ := sizeT (m.size_ + 1) } =
      Function.update m.cells j (some { key, order, occupied := true }) :=
  cellsOf_update m.slots j _

def filled (m : FlatOrderMap) (j : Nat) (o : Order) : FlatOrderMap :=
  { m.setSlot j { key := o.orderId, order := o, occupied := true } with
    size_ := sizeT (m.size_ + 1) }

section Filled

variable {o : Order}

theorem sized_filled (hm : Sized m) : Sized (m.filled j o) := ⟨hm.pow2, hm.mask⟩

theorem slots_filled_self : (m.filled j o).slots j = ⟨o.orderId, o, true⟩ :=
  Function.update_self ..

theorem slots_filled_of_ne {i : Nat} (hi : i ≠ j) : (m.filled j o).slots i = m.slots i :=
  Function.update_of_ne hi ..

theorem cells_filled : (m.filled j o).cells =
    Function.update m.cells j (some ⟨o.orderId, o, true⟩) := cells_insert o

theorem heap_filled_self : (m.filled j o).heap j = o :=
  congrArg Slot.order slots_filled_self

theorem heap_filled_of_ne {i : Nat} (hi : i ≠ j) : (m.filled j o).heap i = m.heap i :=
  congrArg Slot.order (slots_filled_of_ne hi)

end Filled

theorem insert_of_occupied (hj : m.probe key = some j)
    (hocc : (m.slots j).occupied = true) (order : Order) :
    m.insert key order = some (j, m.setSlot j { m.slots j with order }) := by
  simp [insert, hj, hocc]

theorem find_of_free (hj : m.probe key = some j) (hocc : (m.slots j).occupied = false) :
    m.find key = some none := by
  simp [find, hj, hocc]

theorem find_of_occupied (hj : m.probe key = some j) (hocc : (m.slots j).occupied = true) :
    m.find key = some (some j) := by
  simp [find, hj, hocc]

theorem erase_of_free (hj : m.probe key = some j) (hocc : (m.slots j).occupied = false) :
    m.erase key = some (false, m) := by
  simp [erase, hj, hocc]

theorem erase_of_occupied {slots : Nat → Slot} (hj : m.probe key = some j)
    (hocc : (m.slots j).occupied = true) (hs : m.backwardShift j = some slots) :
    m.erase key = some (true, { m with slots, size_ := sizePred m.size_ }) := by
  simp [erase, hj, hocc, hs]

end Probe

/-! ## The backward shift -/

def Shift.view (t : Shift) : OpenAddressing.Shift Slot where
  cells := cellsOf t.slots
  hole := t.hole
  cur := t.cur

section Shift

variable {m : FlatOrderMap}

theorem shiftBody_view (hm : Sized m) (t : Shift) (hhole : t.hole < m.capacity_) :
    OpenAddressing.shiftBody m.capacity_ m.home t.view =
      (m.shiftBody t).map (Sum.map Shift.view cellsOf) := by
  unfold OpenAddressing.shiftBody shiftBody
  cases hocc : (t.slots t.cur).occupied with
  | false =>
      have hnone : t.view.cells t.view.cur = none := cellsOf_eq_none.mpr hocc
      rw [hnone]
      simp [hocc, Shift.view]
  | true =>
      have hsome : t.view.cells t.view.cur = some (t.slots t.cur) :=
        cellsOf_eq_some.mpr ⟨hocc, rfl⟩
      rw [hsome]
      simp only [hocc, Bool.not_true, Bool.false_eq_true, if_false, gt_iff_lt,
        hm.distance_eq (hm.hash_lt _), hm.distance_eq hhole, hm.next_eq]
      change (if Cyclic.dist m.capacity_ t.hole t.cur <
        Cyclic.dist m.capacity_ (m.hash (t.slots t.cur).key) t.cur then _ else _) = _
      split_ifs
      · simp [OpenAddressing.Shift.move, Shift.view, cellsOf_update, hocc]
      · simp [OpenAddressing.Shift.pass, Shift.view]

theorem shiftBody_bounds (hm : Sized m) {t t' : Shift} (hcur : t.cur < m.capacity_)
    (hhole : t.hole < m.capacity_) (h : m.shiftBody t = some (.inl t')) :
    t'.hole < m.capacity_ ∧ t'.cur < m.capacity_ := by
  have hnext : m.next t.cur < m.capacity_ := by
    rw [hm.next_eq]
    exact Nat.mod_lt _ hm.capacity_pos
  unfold shiftBody at h
  dsimp only at h
  split_ifs at h
  · simp at h
  · obtain rfl := Sum.inl.inj (Option.some.inj h)
    exact ⟨hcur, hnext⟩
  · obtain rfl := Sum.inl.inj (Option.some.inj h)
    exact ⟨hhole, hnext⟩

/-- The cells that the backward shift from `idx` starts on. -/
def vacated (m : FlatOrderMap) (idx : Nat) : Nat → Option Slot :=
  Function.update m.cells idx none

theorem vacated_rearranged (hm : Sized m) {idx : Nat} (hidx : idx < m.capacity_) :
    OpenAddressing.Rearranged m.capacity_ (m.vacated idx)
      ⟨m.vacated idx, idx, (idx + 1) % m.capacity_⟩ :=
  ⟨hidx, Nat.mod_lt _ hm.capacity_pos, by simp [vacated],
    Equiv.refl Nat, fun _ => Iff.rfl, rfl⟩

theorem run_shift_view (hm : Sized m) {idx : Nat} (hidx : idx < m.capacity_) :
    Loop.run (OpenAddressing.shiftBody m.capacity_ m.home) m.shiftFuel
        ⟨m.vacated idx, idx, (idx + 1) % m.capacity_⟩ =
      (m.backwardShift idx).map cellsOf := by
  have hview : (⟨m.vacated idx, idx, (idx + 1) % m.capacity_⟩ : OpenAddressing.Shift Slot) =
      Shift.view ⟨Function.update m.slots idx { m.slots idx with occupied := false },
        idx, m.next idx⟩ := by
    simp [Shift.view, vacated, cells, cellsOf_update, hm.next_eq]
  rw [hview]
  apply Loop.run_map Shift.view cellsOf
    (fun t => t.hole < m.capacity_ ∧ t.cur < m.capacity_)
  · intro t ht
    exact shiftBody_view hm t ht.1
  · intro t t' ht hstep
    exact shiftBody_bounds hm ht.2 ht.1 hstep
  · refine ⟨hidx, ?_⟩
    rw [hm.next_eq]
    exact Nat.mod_lt _ hm.capacity_pos

theorem backwardShift_returns (hm : Sized m) {idx : Nat} (hidx : idx < m.capacity_) :
    ∃ slots, m.backwardShift idx = some slots := by
  obtain ⟨c', hc'⟩ := OpenAddressing.shift_returns (home_lt hm) (vacated_rearranged hm hidx)
  have hrun := run_shift_view hm hidx
  rw [shiftFuel, hc'] at hrun
  cases hs : m.backwardShift idx with
  | none => simp [hs] at hrun
  | some slots => exact ⟨slots, rfl⟩

theorem backwardShift_run (hm : Sized m) {idx : Nat} (hidx : idx < m.capacity_)
    {slots : Nat → Slot} (h : m.backwardShift idx = some slots) :
    Loop.run (OpenAddressing.shiftBody m.capacity_ m.home) m.shiftFuel
      ⟨m.vacated idx, idx, (idx + 1) % m.capacity_⟩ = some (cellsOf slots) := by
  rw [run_shift_view hm hidx, h]
  rfl

/-- The entries other than the erased one survive, each exactly once. -/
theorem backwardShift_rearranges (hm : Sized m) {idx : Nat} (hidx : idx < m.capacity_)
    {slots : Nat → Slot} (h : m.backwardShift idx = some slots) :
    OpenAddressing.Rearrangement m.capacity_ (m.vacated idx) (cellsOf slots) :=
  OpenAddressing.shift_rearranges (vacated_rearranged hm hidx) (backwardShift_run hm hidx h)

end Shift

end UltraHft.MarketData.FlatOrderMap
