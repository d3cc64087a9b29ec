import UltraHft.MarketData.Proofs.OrderBook.Meaning

/-!
# Ids with slots of their own

If the ids that a run adds have natural slots of their own, every order is stored
in its natural slot, and no removal breaks a probe path.
-/

namespace UltraHft.MarketData.OrderBook

open UltraHft.Lib

/-- The natural slot of an id in the index of a new book. -/
def naturalSlot (id : UInt64) : Nat := (FlatOrderMap.new FlatOrderMap.kDefaultCapacity).hash id

def addedIds (calls : List BookCall) : List UInt64 :=
  calls.filterMap fun
    | .add order => order.map Order.orderId
    | _ => none

def DistinctSlots (ids : List UInt64) : Prop :=
  ids.Pairwise fun id id' => naturalSlot id = naturalSlot id' → id = id'

instance (ids : List UInt64) : Decidable (DistinctSlots ids) :=
  inferInstanceAs (Decidable (List.Pairwise _ _))

theorem DistinctSlots.eq {ids : List UInt64} (h : DistinctSlots ids) :
    ∀ id ∈ ids, ∀ id' ∈ ids, naturalSlot id = naturalSlot id' → id = id' := by
  have hsymm : Std.Symm fun id id' => naturalSlot id = naturalSlot id' → id = id' :=
    ⟨fun _ _ hone hslot => (hone hslot.symm).symm⟩
  intro id hid id' hid'
  exact h.forall_of_forall (fun _ _ _ => rfl) hid hid'

/-- Every stored key is one of the ids and lies in its natural slot. -/
def AtHome (keys : Nat → Option UInt64) (ids : List UInt64) : Prop :=
  ∀ p key, keys p = some key → p = naturalSlot key ∧ key ∈ ids

variable {b b' : OrderBook} {ptrs ptrs' : List Nat} {book : PriceTime.Book UInt64 Nat}
  {call : BookCall} {answer : Answer} {ids : List UInt64} {id : UInt64} {j : Nat}

theorem mem_addedIds {calls : List BookCall} :
    id ∈ addedIds calls ↔ ∃ o, .add (some o) ∈ calls ∧ o.orderId = id := by
  rw [addedIds, List.mem_filterMap]
  constructor
  · rintro ⟨call, hcall, hid⟩
    cases call with
    | add order =>
        obtain ⟨o, rfl, rfl⟩ := Option.map_eq_some_iff.mp hid
        exact ⟨o, hcall, rfl⟩
    | cancel _ => cases hid
    | execute _ _ => cases hid
  · rintro ⟨o, ho, rfl⟩
    exact ⟨_, ho, rfl⟩

theorem Stores.hash_eq (h : Stores b ptrs book) (id : UInt64) :
    b.orders_.hash id = naturalSlot id := by
  have hnew := FlatOrderMap.new_sized (c := FlatOrderMap.kDefaultCapacity) (by decide)
  have hmask : b.orders_.mask_ = (FlatOrderMap.new FlatOrderMap.kDefaultCapacity).mask_ := by
    rw [h.arrivals.sized.mask, hnew.mask, h.capacity]
    rfl
  rw [naturalSlot, FlatOrderMap.hash, FlatOrderMap.hash, hmask]

theorem Stores.probe_eq (h : Stores b ptrs book) (hhome : AtHome b.orders_.keys ids)
    (hown : ∀ key ∈ ids, naturalSlot key = naturalSlot id → key = id)
    (hj : b.orders_.probe id = some j) : j = naturalSlot id := by
  have hm := h.arrivals.sized
  rw [← h.hash_eq]
  cases hocc : (b.orders_.slots (b.orders_.hash id)).occupied with
  | false =>
      rw [FlatOrderMap.probe_of_home_free hm hocc] at hj
      exact (Option.some.inj hj).symm
  | true =>
      -- the order in the natural slot has the id, so the probe has ended there
      have hkeys := FlatOrderMap.keys_eq_some.mpr ⟨hocc, rfl⟩
      obtain ⟨hslot, hin⟩ := hhome _ _ hkeys
      have hkey := hown _ hin (hslot.symm.trans (h.hash_eq id))
      have hdist := Cyclic.dist_self (hm.hash_lt id)
      by_contra hne
      have hfirst := (FlatOrderMap.probe_eq_some_iff hm).mp hj
      have hpos : 0 < Cyclic.dist b.orders_.capacity_ (b.orders_.hash id) j := by
        apply Nat.pos_of_ne_zero
        intro hzero
        exact hne (Cyclic.dist_inj (hm.hash_lt id) hfirst.1 (hm.hash_lt id)
          (hzero.trans hdist.symm))
      apply hfirst.2.2 _ (hm.hash_lt id) (by omega)
      rw [OpenAddressing.stops_iff]
      intro s hs
      rw [← (FlatOrderMap.cells_eq_some.mp hs).2]
      exact hkey

/-- Where every key is in its natural slot, no removal crosses a probe path. -/
theorem Stores.not_crossing (h : Stores b ptrs book) (hhome : AtHome b.orders_.keys ids) :
    ¬ b.Crossing call := by
  rintro ⟨j, -, p, hp, s, hs, hlt⟩
  have hkeys : b.orders_.keys p = some s.key := by
    rw [FlatOrderMap.keys, hs]
    rfl
  obtain ⟨hslot, -⟩ := hhome p s.key hkeys
  have hself : b.orders_.home s = p := by
    rw [hslot]
    exact h.hash_eq s.key
  rw [hself, Cyclic.dist_self hp] at hlt
  omega

theorem Stores.atHome_step (h : Stores b ptrs book) (hhome : AtHome b.orders_.keys ids)
    (hprog : Progress b ptrs call answer b' ptrs')
    (hown : ∀ o, call = .add (some o) → ∀ key ∈ ids,
      naturalSlot key = naturalSlot o.orderId → key = o.orderId) :
    AtHome b'.orders_.keys (ids ++ addedIds [call]) := by
  intro p key hkey
  have hold : b.orders_.keys p = some key → p = naturalSlot key ∧
      key ∈ ids ++ addedIds [call] := by
    intro hkeys
    obtain ⟨hslot, hin⟩ := hhome p key hkeys
    exact ⟨hslot, List.mem_append_left _ hin⟩
  rcases hprog.keys with hkeys | ⟨o, j, rfl, hj, -, hkeys⟩ | ⟨j, -, hkeys⟩
  · rw [hkeys] at hkey
    exact hold hkey
  · rw [hkeys] at hkey
    by_cases hpj : p = j
    · subst hpj
      rw [Function.update_self] at hkey
      obtain rfl := Option.some.inj hkey
      refine ⟨h.probe_eq hhome (hown o rfl) hj, List.mem_append_right _ ?_⟩
      exact mem_addedIds.mpr ⟨o, List.mem_cons_self, rfl⟩
    · rw [Function.update_of_ne hpj] at hkey
      exact hold hkey
  · rw [hkeys] at hkey
    by_cases hpj : p = j
    · subst hpj
      rw [Function.update_self] at hkey
      cases hkey
    · rw [Function.update_of_ne hpj] at hkey
      exact hold hkey

theorem exec_atHome (instrumentId : UInt32) {calls : List BookCall} (hroom : LeavesRoom calls)
    (hslots : DistinctSlots (addedIds calls)) : ∀ pre, pre <+: calls →
      ∃ s, exec instrumentId pre = some s ∧
        ∃ ptrs, Stores s.1 ptrs (meant pre).2 ∧ AtHome s.1.orders_.keys (addedIds pre) := by
  intro pre hpre
  apply Runs.exec_total (fun pre (s : Recorded) =>
    ∃ ptrs, Stores s.1 ptrs (meant pre).2 ∧ AtHome s.1.orders_.keys (addedIds pre))
  · refine ⟨[], Stores.new instrumentId, ?_⟩
    intro p key hkey
    cases hkey
  · rintro p call ⟨b, ledger⟩ hp - ⟨ptrs, hstores, hhome⟩
    have hp' := hp.trans hpre
    obtain ⟨answer, b', ptrs', hrun, hprog, -, hstores'⟩ :=
      hstores.step ⟨hroom p call hp', hstores.not_crossing hhome⟩
    have hmore : addedIds (p ++ [call]) = addedIds p ++ addedIds [call] :=
      List.filterMap_append
    have hsub : ∀ {id}, id ∈ addedIds (p ++ [call]) → id ∈ addedIds calls := by
      intro id hid
      obtain ⟨o, ho, rfl⟩ := mem_addedIds.mp hid
      exact mem_addedIds.mpr ⟨o, hp'.subset ho, rfl⟩
    refine ⟨(b', ledger.record call answer), step_eq_some hrun, ptrs', ?_, ?_⟩
    · rw [meant_snoc]
      exact hstores'
    · rw [hmore] at hsub ⊢
      apply hstores.atHome_step hhome hprog
      rintro o rfl key hkey hslot
      exact hslots.eq key (hsub (List.mem_append_left _ hkey)) o.orderId
        (hsub (List.mem_append_right _ (mem_addedIds.mpr ⟨o, List.mem_cons_self, rfl⟩))) hslot

/-- A run whose ids have natural slots of their own never breaks a probe path. -/
theorem neverCrosses_of_distinctSlots (instrumentId : UInt32) {calls : List BookCall}
    (hroom : LeavesRoom calls) (hslots : DistinctSlots (addedIds calls)) :
    NeverCrosses instrumentId calls := by
  intro pre call hpre s hs
  obtain ⟨s', hs', ptrs, hstores, hhome⟩ :=
    exec_atHome instrumentId hroom hslots pre ((List.prefix_append pre [call]).trans hpre)
  obtain rfl : s = s' := Option.some.inj (hs.symm.trans hs')
  exact hstores.not_crossing hhome

theorem neverRelocates_of_distinctSlots (instrumentId : UInt32) {calls : List BookCall}
    (hroom : LeavesRoom calls) (hslots : DistinctSlots (addedIds calls)) :
    NeverRelocates instrumentId calls := by
  intro pre call hpre s hs
  obtain ⟨s', hs', ptrs, hstores, hhome⟩ :=
    exec_atHome instrumentId hroom hslots pre ((List.prefix_append pre [call]).trans hpre)
  obtain rfl : s = s' := Option.some.inj (hs.symm.trans hs')
  exact Sound.not_relocating hstores.toCoherent (hstores.not_crossing hhome)

/-- Two bids and an ask, of which one is filled in part, one in full and one is
cancelled; the id of a filled order comes back. -/
def threeOrders : List BookCall :=
  [.add (some (Order.make 1 1 .buy 100 5)), .add (some (Order.make 2 1 .buy 101 7)),
    .add (some (Order.make 3 1 .sell 103 4)), .execute 1 3, .execute 2 9, .execute 2 1,
    .cancel 3, .add none, .add (some (Order.make 2 1 .buy 100 6)), .cancel 3]

theorem showsTop_of_neverCrosses_threeOrders :
    (∀ pre, pre <+: threeOrders → ∃ s, exec 1 pre = some s ∧ ShowsTop s.1 s.2) ∧
      ∀ pre call, pre ++ [call] <+: threeOrders → ∃ s answer b',
        exec 1 pre = some s ∧ call.run s.1 = some (answer, b') ∧ Truthful s.2 call answer :=
  showsTop_of_neverCrosses 1 threeOrders (by decide)
    (neverCrosses_of_distinctSlots 1 (leavesRoom_of_length (by decide)) (by decide))

end UltraHft.MarketData.OrderBook
