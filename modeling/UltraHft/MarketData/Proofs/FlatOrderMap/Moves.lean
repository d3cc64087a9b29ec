import UltraHft.Lib.Simulation
import UltraHft.MarketData.FlatOrderMapMoves
import UltraHft.MarketData.Proofs.FlatOrderMap.Termination

/-!
# Moves carry the index over

What the moves are for: a `FlatOrderMap` is a value that a move hands on, and what
is left behind has no slots.  A program does with the arrays of the free store what
it does with the values: it means something in one reading exactly if it does in the
other, each array belongs to one variable, and with the last variable the last array
is gone.
-/

namespace UltraHft.MarketData

open UltraHft.Lib

/-- What a variable stands for.  An index keeps its address when it is moved, so
that pointers to its orders stay valid; what has been moved from still has a
`capacity()`. -/
inductive MapValue where
  | holds (address : Nat) (m : FlatOrderMap)
  | moved (capacity : Nat)

namespace MapValue

def afterMove : MapValue → MapValue
  | holds _ m => moved m.capacity_
  | moved capacity => moved capacity

def call : MapValue → MapOperation → Option (MapAnswer × MapValue)
  | holds address m, .size => some (.number m.size_, holds address m)
  | holds address m, .capacity => some (.number m.capacity_, holds address m)
  | holds address m, .empty => some (.found (m.size_ == 0), holds address m)
  | holds address m, operation =>
      (m.operate address operation).map fun r => (r.1, holds address r.2)
  | moved capacity, .size => some (.number 0, moved capacity)
  | moved capacity, .capacity => some (.number capacity, moved capacity)
  | moved capacity, .empty => some (.found true, moved capacity)
  | moved _, _ => none

end MapValue

/-- A program on values: the variables that are alive, with what they stand for. -/
def MapValues (V : Type) : Type := V → Option MapValue

namespace MapValues

variable {V : Type} [DecidableEq V]

def set (t : MapValues V) (v : V) (x : Option MapValue) : MapValues V := Function.update t v x

def step (t : MapValues V) : MapStatement V → Option (MapAnswer × MapValues V)
  | .construct v capacity address =>
      if (t v).isSome then none
      else some (.nothing, t.set v (some (.holds address (FlatOrderMap.new capacity))))
  | .moveConstruct v o =>
      if (t v).isSome then none
      else (t o).map fun x => (.nothing, (t.set v (some x)).set o (some x.afterMove))
  | .moveAssign v o =>
      (t v).bind fun _ => (t o).map fun y =>
        if v = o then (.nothing, t)
        else (.nothing, (t.set v (some y)).set o (some (.moved 0)))
  | .call v operation =>
      (t v).bind fun x => (x.call operation).map fun r => (r.1, t.set v (some r.2))
  | .destroy v => (t v).map fun _ => (.nothing, t.set v none)

end MapValues

namespace FlatOrderMap

variable {m : FlatOrderMap} {address : Nat} {operation : MapOperation}

theorem erase_sameShape {key : UInt64} {r : Bool × FlatOrderMap} (h : m.erase key = some r) :
    SameShape m r.2 := by
  obtain ⟨idx, -, hbody⟩ := Option.bind_eq_some_iff.mp h
  split_ifs at hbody
  · rw [← Option.some.inj hbody]
  · obtain ⟨slots, -, hr⟩ := Option.bind_eq_some_iff.mp hbody
    rw [← Option.some.inj hr]
    exact ⟨rfl, rfl⟩

theorem operate_sameShape {r : MapAnswer × FlatOrderMap}
    (h : m.operate address operation = some r) : SameShape m r.2 := by
  cases operation with
  | insert key order =>
      obtain ⟨r', hr', rfl⟩ := Option.map_eq_some_iff.mp h
      obtain ⟨idx, hidx, -⟩ := Option.bind_eq_some_iff.mp hr'
      obtain ⟨r'', hr'', hshape⟩ := insert_returns hidx order
      rw [hr''] at hr'
      rwa [← Option.some.inj hr']
  | find key =>
      obtain ⟨_, -, rfl⟩ := Option.map_eq_some_iff.mp h
      rfl
  | erase key =>
      obtain ⟨r', hr', rfl⟩ := Option.map_eq_some_iff.mp h
      exact erase_sameShape hr'
  | clear =>
      rw [← Option.some.inj h]
      exact ⟨rfl, rfl⟩
  | size => cases h
  | capacity => cases h
  | empty => cases h

end FlatOrderMap

/-- A variable stands for a value: its array holds the slots, or it has none. -/
def Stands (arrays : Nat → Option SlotArray) (x : MapMembers) : MapValue → Prop
  | .holds p m => x.slots_ = some p ∧ ∃ array, arrays p = some array ∧
      array.length = x.capacity_ ∧ m = ⟨array.slots, x.capacity_, x.mask_, x.size_⟩
  | .moved capacity => x.slots_ = none ∧ x.capacity_ = capacity ∧ x.size_ = 0

variable {V : Type} {s : MapStore V} {t : MapValues V} {v o : V}
  {arrays arrays' : Nat → Option SlotArray} {x : MapMembers} {y : MapValue}

theorem Stands.congr (h : Stands arrays x y)
    (hsame : ∀ p, x.slots_ = some p → arrays' p = arrays p) : Stands arrays' x y := by
  cases y with
  | holds p m =>
      obtain ⟨hslots, array, harray, hrest⟩ := h
      exact ⟨hslots, array, by rw [hsame p hslots, harray], hrest⟩
  | moved capacity => exact h

theorem Stands.live (h : Stands arrays x y) {p : Nat} (hp : x.slots_ = some p) :
    (arrays p).isSome := by
  cases y with
  | holds q m =>
      obtain ⟨hslots, array, harray, -⟩ := h
      obtain rfl := Option.some.inj (hp.symm.trans hslots)
      rw [harray]
      rfl
  | moved capacity =>
      rw [h.1] at hp
      cases hp

theorem Stands.movedFrom (h : Stands arrays x y) : Stands arrays' x.movedFrom y.afterMove := by
  cases y with
  | holds p m =>
      obtain ⟨-, array, -, -, rfl⟩ := h
      exact ⟨rfl, rfl, rfl⟩
  | moved capacity => exact ⟨rfl, h.2.1, rfl⟩

def MapStore.owned (s : MapStore V) (v : V) : Option Nat := (s.maps v).bind MapMembers.slots_

/-- The variables stand for the values, and each array has one owner. -/
structure Represents (s : MapStore V) (t : MapValues V) : Prop where
  stands : ∀ v, Option.Rel (Stands s.arrays) (s.maps v) (t v)
  exclusive : ∀ v w p, s.owned v = some p → s.owned w = some p → v = w
  covered : ∀ p, (s.arrays p).isSome → ∃ v, s.owned v = some p
  log : Lifetimes.after s.log = some s.arrays

@[simp] theorem MapStore.maps_setMap_self [DecidableEq V] (x : Option MapMembers) :
    (s.setMap v x).maps v = x :=
  Function.update_self _ _ _

theorem MapStore.maps_setMap_of_ne [DecidableEq V] {w : V} (h : w ≠ v) {x : Option MapMembers} :
    (s.setMap v x).maps w = s.maps w :=
  Function.update_of_ne h _ _

@[simp] theorem MapStore.arrays_setMap [DecidableEq V] (x : Option MapMembers) :
    (s.setMap v x).arrays = s.arrays := rfl

theorem MapStore.setMap_setMap [DecidableEq V] (x x' : Option MapMembers) :
    (s.setMap v x).setMap v x' = s.setMap v x' := by
  simp [MapStore.setMap]

@[simp] theorem MapValues.set_self [DecidableEq V] (y : Option MapValue) : t.set v y v = y :=
  Function.update_self _ _ _

theorem MapValues.set_of_ne [DecidableEq V] {w : V} (h : w ≠ v) {y : Option MapValue} :
    t.set v y w = t w :=
  Function.update_of_ne h _ _

theorem MapValues.set_set [DecidableEq V] (y y' : Option MapValue) :
    (t.set v y).set v y' = t.set v y' :=
  Function.update_idem _ _ _

namespace Represents

theorem new : Represents (MapStore.new V) (fun _ => none) := by
  constructor
  · intro v
    exact .none
  · intro v w p hv
    cases hv
  · intro p hp
    cases hp
  · rfl

theorem cases (h : Represents s t) (v : V) :
    (s.maps v = none ∧ t v = none) ∨
    ∃ x y, s.maps v = some x ∧ t v = some y ∧ Stands s.arrays x y := by
  have hv := h.stands v
  cases hx : s.maps v with
  | none =>
      rw [hx] at hv
      cases hy : t v with
      | none => exact .inl ⟨rfl, rfl⟩
      | some y =>
          rw [hy] at hv
          cases hv
  | some x =>
      rw [hx] at hv
      cases hy : t v with
      | none =>
          rw [hy] at hv
          cases hv
      | some y =>
          rw [hy] at hv
          exact .inr ⟨x, y, rfl, rfl, Option.rel_some_some.mp hv⟩

theorem owned_live (h : Represents s t) {p : Nat} (hp : s.owned v = some p) :
    (s.arrays p).isSome := by
  obtain ⟨x, hx, hslots⟩ := Option.bind_eq_some_iff.mp hp
  rcases h.cases v with ⟨hnone, -⟩ | ⟨x', y, hx', -, hstands⟩
  · rw [hnone] at hx
    cases hx
  · obtain rfl := Option.some.inj (hx.symm.trans hx')
    exact hstands.live hslots

theorem emit (h : Represents s t) {event : Lifetimes.Event Nat SlotArray}
    (hnext : Lifetimes.next s.arrays event = some arrays) :
    ∃ s', s.emit event = some s' ∧ s'.maps = s.maps ∧ s'.arrays = arrays ∧
      Lifetimes.after s'.log = some s'.arrays := by
  refine ⟨{ s with arrays, log := s.log ++ [event] }, ?_, rfl, rfl, ?_⟩
  · rw [MapStore.emit, hnext, Option.map_some]
  · exact (Lifetimes.after_snoc h.log event).trans hnext

theorem owned_congr {s' : MapStore V} (hmaps : s'.maps = s.maps) : s'.owned = s.owned := by
  funext w
  rw [MapStore.owned, hmaps]
  rfl

theorem owned_eq (hv : s.maps v = some x) : s.owned v = x.slots_ := by
  rw [MapStore.owned, hv]
  rfl

variable [DecidableEq V]

theorem owned_setMap (x : Option MapMembers) :
    (s.setMap v x).owned = Function.update s.owned v (x.bind MapMembers.slots_) := by
  funext w
  by_cases hw : w = v
  · subst hw
    simp [MapStore.owned, MapStore.setMap]
  · simp [MapStore.owned, MapStore.setMap, hw]

theorem stands_set (h : ∀ w, w ≠ v → Option.Rel (Stands arrays) (s.maps w) (t w))
    {x : Option MapMembers} {y : Option MapValue} (hv : Option.Rel (Stands arrays) x y) (w : V) :
    Option.Rel (Stands arrays) ((s.setMap v x).maps w) (t.set v y w) := by
  by_cases hw : w = v
  · rw [hw, MapStore.maps_setMap_self, MapValues.set_self]
    exact hv
  · rw [MapStore.maps_setMap_of_ne hw, MapValues.set_of_ne hw]
    exact h w hw

theorem construct (h : Represents s t) (hv : s.maps v = none) {address : Nat}
    (hfresh : s.arrays address = none) (m : FlatOrderMap) :
    ∃ s', s.emit (.born address ⟨m.capacity_, m.slots⟩) = some s' ∧
      Represents (s'.setMap v (some ⟨some address, m.capacity_, m.mask_, m.size_⟩))
        (t.set v (some (.holds address m))) := by
  obtain ⟨s', hemit, hmaps, harrays, hlog⟩ :=
    h.emit (Lifetimes.next_born hfresh ⟨m.capacity_, m.slots⟩)
  have hnobody : ∀ w, s.owned w ≠ some address := by
    intro w hw
    have hlive := h.owned_live hw
    rw [hfresh] at hlive
    cases hlive
  refine ⟨s', hemit, ?_⟩
  constructor
  · rw [MapStore.arrays_setMap, harrays]
    apply stands_set
    · intro w _
      rw [hmaps]
      rcases h.cases w with ⟨hx, hy⟩ | ⟨x, y, hx, hy, hstands⟩
      · rw [hx, hy]
        exact .none
      · rw [hx, hy]
        refine .some (hstands.congr fun p hp => ?_)
        apply Function.update_of_ne
        rintro rfl
        exact hnobody w ((owned_eq hx).trans hp)
    · exact .some ⟨rfl, _, Function.update_self _ _ _, rfl, rfl⟩
  · intro w w' p hw hw'
    rw [owned_setMap, owned_congr hmaps] at hw hw'
    by_cases hwv : w = v
    · subst hwv
      obtain rfl : address = p := by simpa using hw
      by_cases hw'v : w' = w
      · exact hw'v.symm
      · rw [Function.update_of_ne hw'v] at hw'
        exact absurd hw' (hnobody w')
    · rw [Function.update_of_ne hwv] at hw
      by_cases hw'v : w' = v
      · subst hw'v
        obtain rfl : address = p := by simpa using hw'
        exact absurd hw (hnobody w)
      · rw [Function.update_of_ne hw'v] at hw'
        exact h.exclusive w w' p hw hw'
  · intro p hp
    change (s'.arrays p).isSome at hp
    rw [owned_setMap, owned_congr hmaps]
    by_cases hpa : p = address
    · exact ⟨v, by simp [hpa]⟩
    · rw [harrays, Function.update_of_ne hpa] at hp
      obtain ⟨w, hw⟩ := h.covered p hp
      have hwv : w ≠ v := by
        rintro rfl
        rw [MapStore.owned, hv] at hw
        cases hw
      exact ⟨w, by rwa [Function.update_of_ne hwv]⟩
  · exact hlog

theorem remove (h : Represents s t) (hv : s.maps v = some x) {s' : MapStore V}
    (hmaps : s'.maps = s.maps) (hgone : ∀ p, x.slots_ = some p → s'.arrays p = none)
    (hsame : ∀ p, x.slots_ ≠ some p → s'.arrays p = s.arrays p)
    (hlog : Lifetimes.after s'.log = some s'.arrays) :
    Represents (s'.setMap v none) (t.set v none) := by
  have howned := owned_congr hmaps
  have hvOwned := owned_eq hv
  constructor
  · apply stands_set _ .none
    intro w hw
    rw [hmaps]
    rcases h.cases w with ⟨hx', hy⟩ | ⟨x', y, hx', hy, hstands⟩
    · rw [hx', hy]
      exact .none
    · rw [hx', hy]
      refine .some (hstands.congr fun p hp => hsame p fun hxp => hw ?_)
      exact h.exclusive w v p ((owned_eq hx').trans hp) (hvOwned.trans hxp)
  · intro w w' p hw hw'
    rw [owned_setMap, howned] at hw hw'
    by_cases hwv : w = v
    · simp [hwv] at hw
    · by_cases hw'v : w' = v
      · simp [hw'v] at hw'
      · rw [Function.update_of_ne hwv] at hw
        rw [Function.update_of_ne hw'v] at hw'
        exact h.exclusive w w' p hw hw'
  · intro p hp
    change (s'.arrays p).isSome at hp
    rw [owned_setMap, howned]
    have hxp : x.slots_ ≠ some p := by
      intro hxp
      rw [hgone p hxp] at hp
      cases hp
    rw [hsame p hxp] at hp
    obtain ⟨w, hw⟩ := h.covered p hp
    have hwv : w ≠ v := by
      rintro rfl
      exact hxp (hvOwned.symm.trans hw)
    exact ⟨w, by rwa [Function.update_of_ne hwv]⟩
  · exact hlog

theorem release (h : Represents s t) (hv : s.maps v = some x) :
    ∃ s', s.deleteArray x.slots_ = some s' ∧ s'.maps = s.maps ∧
      Represents (s'.setMap v none) (t.set v none) := by
  cases hslots : x.slots_ with
  | none =>
      refine ⟨s, rfl, rfl, h.remove hv rfl ?_ (fun _ _ => rfl) h.log⟩
      intro p hp
      rw [hslots] at hp
      cases hp
  | some p =>
      have hlive := h.owned_live ((owned_eq hv).trans hslots)
      obtain ⟨s', hemit, hmaps, harrays, hlog⟩ := h.emit (Lifetimes.next_dies hlive)
      refine ⟨s', hemit, hmaps, h.remove hv hmaps ?_ ?_ hlog⟩
      · intro q hq
        obtain rfl := Option.some.inj (hslots.symm.trans hq)
        rw [harrays, Function.update_self]
      · intro q hq
        rw [harrays]
        apply Function.update_of_ne
        rintro rfl
        exact hq hslots

theorem transfer (h : Represents s t) (hv : s.maps v = none) (ho : s.maps o = some x)
    (hy : t o = some y) (left : MapMembers) (leaves : MapValue)
    (hleft : Stands s.arrays left leaves) (hnull : left.slots_ = none) :
    Represents ((s.setMap v (some x)).setMap o (some left))
      ((t.set v (some y)).set o (some leaves)) := by
  have hov : o ≠ v := by
    rintro rfl
    rw [hv] at ho
    cases ho
  have hstands : Stands s.arrays x y := by
    have hrel := h.stands o
    rw [ho, hy] at hrel
    exact Option.rel_some_some.mp hrel
  -- the array changes hands with the names of the two variables
  have howned : ((s.setMap v (some x)).setMap o (some left)).owned =
      fun w => s.owned (Equiv.swap v o w) := by
    funext w
    rw [owned_setMap, owned_setMap]
    by_cases hwo : w = o
    · subst hwo
      simp [hnull, MapStore.owned, hv]
    · by_cases hwv : w = v
      · subst hwv
        simp [Ne.symm hov, MapStore.owned, ho]
      · rw [Function.update_of_ne hwo, Function.update_of_ne hwv,
          Equiv.swap_apply_of_ne_of_ne hwv hwo]
  constructor
  · apply stands_set
    · intro w _
      exact stands_set (fun w _ => h.stands w) (.some hstands) w
    · exact .some hleft
  · intro w w' p hw hw'
    rw [howned] at hw hw'
    exact (Equiv.swap v o).injective (h.exclusive _ _ p hw hw')
  · intro p hp
    obtain ⟨w, hw⟩ := h.covered p hp
    refine ⟨Equiv.swap v o w, ?_⟩
    rw [howned]
    simpa using hw
  · exact h.log

theorem write (h : Represents s t) (hv : s.maps v = some x) {p : Nat} (hp : x.slots_ = some p)
    {array : SlotArray} (harray : s.arrays p = some array) (hlength : array.length = x.capacity_)
    (slots : Nat → Slot) (size : Nat) :
    ∃ s', s.emit (.changes p { array with slots }) = some s' ∧
      Represents (s'.setMap v (some { x with size_ := size }))
        (t.set v (some (.holds p ⟨slots, x.capacity_, x.mask_, size⟩))) := by
  have hlive : (s.arrays p).isSome := by
    rw [harray]
    rfl
  have hvOwned := (owned_eq hv).trans hp
  obtain ⟨s', hemit, hmaps, harrays, hlog⟩ :=
    h.emit (Lifetimes.next_changes hlive { array with slots })
  have howned : (s'.setMap v (some { x with size_ := size })).owned = s.owned := by
    rw [owned_setMap, owned_congr hmaps]
    exact Function.update_eq_self_iff.mpr (hp.trans hvOwned.symm)
  refine ⟨s', hemit, ?_⟩
  constructor
  · rw [MapStore.arrays_setMap, harrays]
    apply stands_set
    · intro w hw
      rw [hmaps]
      rcases h.cases w with ⟨hx', hy⟩ | ⟨x', y, hx', hy, hstands⟩
      · rw [hx', hy]
        exact .none
      · rw [hx', hy]
        refine .some (hstands.congr fun q hq => ?_)
        apply Function.update_of_ne
        rintro rfl
        exact hw (h.exclusive w v q ((owned_eq hx').trans hq) hvOwned)
    · exact .some ⟨hp, _, Function.update_self _ _ _, hlength, rfl⟩
  · intro w w' q hw hw'
    rw [howned] at hw hw'
    exact h.exclusive w w' q hw hw'
  · intro q hq
    change (s'.arrays q).isSome at hq
    rw [howned]
    by_cases hqp : q = p
    · exact ⟨v, hqp ▸ hvOwned⟩
    · rw [harrays, Function.update_of_ne hqp] at hq
      exact h.covered q hq
  · exact hlog

def Agrees (r : MapAnswer × MapStore V) (r' : MapAnswer × MapValues V) : Prop :=
  r.1 = r'.1 ∧ Represents r.2 r'.2

theorem set_eq_self (ht : t v = some y) : t.set v (some y) = t :=
  Function.update_eq_self_iff.mpr ht.symm

theorem onSlots (h : Represents s t) (hv : s.maps v = some x) {p : Nat} {m : FlatOrderMap}
    (hstands : Stands s.arrays x (.holds p m)) (operation : MapOperation) :
    Option.Rel Agrees (s.onSlots v x operation)
      ((m.operate p operation).map fun r => (r.1, t.set v (some (.holds p r.2)))) := by
  obtain ⟨hp, array, harray, hlength, hm⟩ := hstands
  have hview : x.view array = some m := by rw [MapMembers.view, if_pos hlength.ge, hm]
  cases hr : m.operate p operation with
  | none =>
      simp only [MapStore.onSlots, hp, harray, hview, hr, Option.bind_eq_bind, Option.bind_some,
        Option.bind_none, Option.map_none]
      exact .none
  | some r =>
      obtain ⟨answer, slots, capacity, mask, size⟩ := r
      have hshape := FlatOrderMap.operate_sameShape hr
      obtain rfl : capacity = x.capacity_ := hshape.capacity.trans (by rw [hm])
      obtain rfl : mask = x.mask_ := hshape.mask.trans (by rw [hm])
      obtain ⟨s', hemit, hrep⟩ := h.write hv hp harray hlength slots size
      rw [hp] at hrep
      simp only [MapStore.onSlots, hp, harray, hview, hr, hemit, Option.bind_eq_bind,
        Option.bind_some, Option.map_some]
      exact .some ⟨rfl, hrep⟩

theorem call (h : Represents s t) (hv : s.maps v = some x) (ht : t v = some y)
    (hstands : Stands s.arrays x y) (operation : MapOperation) :
    Option.Rel Agrees
      ((x.read operation).elim (s.onSlots v x operation) fun answer => some (answer, s))
      ((y.call operation).map fun r => (r.1, t.set v (some r.2))) := by
  have hstay : Represents s (t.set v (some y)) := by
    rw [set_eq_self ht]
    exact h
  cases y with
  | holds p m =>
      have hslots := h.onSlots hv hstands operation
      obtain ⟨-, array, -, -, hm⟩ := hstands
      cases operation with
      | size => exact .some ⟨by rw [hm], hstay⟩
      | capacity => exact .some ⟨by rw [hm], hstay⟩
      | empty => exact .some ⟨by rw [hm], hstay⟩
      | insert key order =>
          simp only [MapValue.call, Option.map_map]
          exact hslots
      | find key =>
          simp only [MapValue.call, Option.map_map]
          exact hslots
      | erase key =>
          simp only [MapValue.call, Option.map_map]
          exact hslots
      | clear =>
          simp only [MapValue.call, Option.map_map]
          exact hslots
  | moved capacity =>
      obtain ⟨hnull, hcapacity, hsize⟩ := hstands
      have hnone : s.onSlots v x operation = none := by
        simp only [MapStore.onSlots, hnull]
        rfl
      cases operation with
      | size => exact .some ⟨by rw [hsize], hstay⟩
      | capacity => exact .some ⟨by rw [hcapacity], hstay⟩
      | empty => exact .some ⟨by rw [hsize]; rfl, hstay⟩
      | insert key order =>
          simp only [MapMembers.read, Option.elim_none, hnone]
          exact .none
      | find key =>
          simp only [MapMembers.read, Option.elim_none, hnone]
          exact .none
      | erase key =>
          simp only [MapMembers.read, Option.elim_none, hnone]
          exact .none
      | clear =>
          simp only [MapMembers.read, Option.elim_none, hnone]
          exact .none

end Represents

/-- What `new` returns is not in use. -/
def MapStatement.AllocatesFresh (s : MapStore V) : MapStatement V → Prop
  | .construct _ _ address => s.arrays address = none
  | _ => True

namespace Represents

variable [DecidableEq V]

theorem step (h : Represents s t) (statement : MapStatement V)
    (hfresh : statement.AllocatesFresh s) :
    Option.Rel Agrees (s.step statement) (t.step statement) := by
  cases statement with
  | construct v capacity address =>
      rcases h.cases v with ⟨hx, hy⟩ | ⟨x, y, hx, hy, -⟩
      · obtain ⟨s', hemit, hrep⟩ := h.construct hx hfresh (FlatOrderMap.new capacity)
        simp only [MapStore.step, MapValues.step, hx, hy, hemit, Option.isSome_none,
          Bool.false_eq_true, if_false, Option.bind_eq_bind, Option.bind_some]
        exact .some ⟨rfl, hrep⟩
      · simp only [MapStore.step, MapValues.step, hx, hy, Option.isSome_some, if_true]
        exact .none
  | moveConstruct v o =>
      rcases h.cases v with ⟨hx, hy⟩ | ⟨x, y, hx, hy, -⟩
      · rcases h.cases o with ⟨hxo, hyo⟩ | ⟨xo, yo, hxo, hyo, hstands⟩
        · simp only [MapStore.step, MapValues.step, hx, hy, hxo, hyo, Option.isSome_none,
            Bool.false_eq_true, if_false, Option.bind_eq_bind, Option.bind_none, Option.map_none]
          exact .none
        · simp only [MapStore.step, MapValues.step, hx, hy, hxo, hyo, Option.isSome_none,
            Bool.false_eq_true, if_false, Option.bind_eq_bind, Option.bind_some, Option.map_some]
          exact .some ⟨rfl, h.transfer hx hxo hyo _ _ hstands.movedFrom rfl⟩
      · simp only [MapStore.step, MapValues.step, hx, hy, Option.isSome_some, if_true]
        exact .none
  | moveAssign v o =>
      rcases h.cases v with ⟨hx, hy⟩ | ⟨x, y, hx, hy, -⟩
      · simp only [MapStore.step, MapValues.step, hx, hy, Option.bind_eq_bind, Option.bind_none]
        exact .none
      · rcases h.cases o with ⟨hxo, hyo⟩ | ⟨xo, yo, hxo, hyo, -⟩
        · simp only [MapStore.step, MapValues.step, hx, hy, hxo, hyo, Option.bind_eq_bind,
            Option.bind_some, Option.bind_none, Option.map_none]
          exact .none
        · by_cases hvo : v = o
          · simp only [MapStore.step, MapValues.step, hx, hy, hxo, hyo, Option.bind_eq_bind,
              Option.bind_some, Option.map_some, if_pos hvo]
            exact .some ⟨rfl, h⟩
          · obtain ⟨s', hdelete, hmaps, hrep⟩ := h.release hx
            have hxo' : (s'.setMap v none).maps o = some xo := by
              rw [MapStore.maps_setMap_of_ne (Ne.symm hvo), hmaps, hxo]
            have hyo' : t.set v none o = some yo := by
              rw [MapValues.set_of_ne (Ne.symm hvo), hyo]
            have hmoved := hrep.transfer (MapStore.maps_setMap_self none) hxo' hyo'
              ⟨none, 0, 0, 0⟩ (.moved 0) ⟨rfl, rfl, rfl⟩ rfl
            rw [MapStore.setMap_setMap, MapValues.set_set] at hmoved
            simp only [MapStore.step, MapValues.step, hx, hy, hxo, hyo, hdelete,
              Option.bind_eq_bind, Option.bind_some, Option.map_some, if_neg hvo]
            exact .some ⟨rfl, hmoved⟩
  | call v operation =>
      rcases h.cases v with ⟨hx, hy⟩ | ⟨x, y, hx, hy, hstands⟩
      · simp only [MapStore.step, MapValues.step, hx, hy, Option.bind_eq_bind, Option.bind_none]
        exact .none
      · simp only [MapStore.step, MapValues.step, hx, hy, Option.bind_eq_bind, Option.bind_some]
        exact h.call hx hy hstands operation
  | destroy v =>
      rcases h.cases v with ⟨hx, hy⟩ | ⟨x, y, hx, hy, -⟩
      · simp only [MapStore.step, MapValues.step, hx, hy, Option.bind_eq_bind, Option.bind_none,
          Option.map_none]
        exact .none
      · obtain ⟨s', hdelete, -, hrep⟩ := h.release hx
        simp only [MapStore.step, MapValues.step, hx, hy, hdelete, Option.bind_eq_bind,
          Option.bind_some, Option.map_some]
        exact .some ⟨rfl, hrep⟩

theorem step_lockstep :
    Simulation.Lockstep (MapStore.step (V := V)) MapValues.step Represents
      fun s statement => statement.AllocatesFresh s :=
  fun _ _ statement h hfresh => h.step statement hfresh

end Represents

/-- **A program with `FlatOrderMap` variables that it constructs, moves, uses and
destroys in any order answers what the program on values answers, and means nothing
exactly when that one does: no array is deleted twice, reached after its deletion or
shared.  When no variable is left, every array has been deleted once.** -/
theorem moves_carry_values {V : Type} [DecidableEq V] (program : List (MapStatement V))
    (hfresh : ∀ pre statement, pre ++ [statement] <+: program →
      ∀ given s, Simulation.answers MapStore.step (MapStore.new V) pre = some (given, s) →
        statement.AllocatesFresh s) :
    (Simulation.answers MapStore.step (MapStore.new V) program).map Prod.fst =
      (Simulation.answers MapValues.step (fun _ => none) program).map Prod.fst ∧
    ∀ given s, Simulation.answers MapStore.step (MapStore.new V) program = some (given, s) →
      (∀ v w p, s.owned v = some p → s.owned w = some p → v = w) ∧
      ((∀ v, s.maps v = none) → Lifetimes.Paired s.log) := by
  have hrun := Represents.step_lockstep.answers Represents.new program
    fun pre statement hpre before hbefore =>
      hfresh pre statement hpre before.1 before.2 hbefore
  constructor
  · exact Simulation.rel_map_eq hrun fun _ _ hagrees => hagrees.1
  · intro given s hstore
    rw [hstore] at hrun
    obtain ⟨r, -, -, hrep⟩ := Simulation.exists_of_rel hrun
    refine ⟨hrep.exclusive, fun hgone => ?_⟩
    apply Lifetimes.paired_of_after
    have hempty : s.arrays = fun _ => none := by
      funext p
      by_contra hp
      obtain ⟨v, hv⟩ := hrep.covered p (Option.isSome_iff_ne_none.mpr hp)
      rw [MapStore.owned, hgone v] at hv
      cases hv
    rw [hrep.log, hempty]

/-- What a handler's `reset` does: a second index is moved over the first, and what
is left of it destroyed; at the end the first goes too. -/
theorem moves_carry_values_reset :
    (Simulation.answers MapStore.step (MapStore.new Bool)
      [.construct true 4 100, .construct false 4 200, .moveAssign true false, .destroy false,
        .call true .size, .destroy true]).map Prod.fst =
    some [.nothing, .nothing, .nothing, .nothing, .number 0, .nothing] := by
  have hcarried := moves_carry_values (V := Bool)
    [.construct true 4 100, .construct false 4 200, .moveAssign true false, .destroy false,
      .call true .size, .destroy true] ?_
  · exact hcarried.1.trans rfl
  · intro pre statement hpre given s hs
    cases statement with
    | construct v capacity address =>
        rcases pre with _ | ⟨first, _ | ⟨second, rest⟩⟩
        · obtain ⟨-, rfl⟩ := Prod.ext_iff.mp (Option.some.inj hs)
          rfl
        · simp only [List.cons_append, List.nil_append, List.cons_prefix_cons,
            MapStatement.construct.injEq] at hpre
          obtain ⟨rfl, ⟨rfl, rfl, rfl⟩, -⟩ := hpre
          obtain ⟨-, rfl⟩ := Prod.ext_iff.mp (Option.some.inj hs)
          rfl
        · simp only [List.cons_append, List.cons_prefix_cons] at hpre
          have hmem := hpre.2.2.subset (List.mem_append_right rest (List.mem_singleton_self _))
          simp at hmem
    | moveConstruct v o => trivial
    | moveAssign v o => trivial
    | call v operation => trivial
    | destroy v => trivial

end UltraHft.MarketData
