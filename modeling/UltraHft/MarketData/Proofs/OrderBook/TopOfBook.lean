import Mathlib.Data.Finset.Card
import UltraHft.MarketData.Proofs.OrderBook.LevelRuns

/-!
# Top of book along runs

As long as no removal takes an order out of the probe path of another one, the
index finds exactly the live ids.  Adds and cancels are then answered
truthfully, the orders are counted right, and the first level of each side
carries the best live price.
-/

namespace UltraHft.MarketData.OrderBook

open UltraHft.Lib
open UltraHft.Lib.OpenAddressing (Chained Crosses)

def live (ledger : Ledger) : Finset UInt64 := ledger.ids.toFinset

/-- The best price of a live order of the side, if there is one. -/
def IsBest (ledger : Ledger) (side : Side) : Option UInt64 → Prop
  | none => ∀ o ∈ ledger, o.side ≠ side
  | some price => (∃ o ∈ ledger, o.side = side ∧ o.price = price) ∧
      ∀ o ∈ ledger, o.side = side →
        match side with
        | .buy => o.price ≤ price
        | .sell => price ≤ o.price

/-- An add succeeds exactly when the id is not live, a cancel when it is. -/
def Truthful (ledger : Ledger) : BookCall → Answer → Prop
  | .add none, answer => answer = .added false
  | .add (some order), answer => answer = .added (decide (order.orderId ∉ live ledger))
  | .cancel id, answer => answer = .cancelled (decide (id ∈ live ledger))
  | .execute _ _, answer => ∃ qty, answer = .executed qty

structure ShowsTop (b : OrderBook) (ledger : Ledger) : Prop where
  orderCount : b.orderCount = (live ledger).card
  bestBid : IsBest ledger .buy b.bestBid
  bestAsk : IsBest ledger .sell b.bestAsk

/-- The slot of the order that the call removes lies on the probe path of
another stored order. -/
def Crossing (b : OrderBook) (call : BookCall) : Prop :=
  ∃ j, b.removed call = some j ∧ ∃ p < b.orders_.capacity_,
    Crosses b.orders_.capacity_ b.orders_.home b.orders_.cells j p

def KeepsLiveRoom (instrumentId : UInt32) (calls : List BookCall) : Prop :=
  ∀ pre ∈ calls.inits, ∀ s ∈ exec instrumentId pre,
    (live s.2).card < s.1.orders_.capacity_

instance (instrumentId : UInt32) (calls : List BookCall) :
    Decidable (KeepsLiveRoom instrumentId calls) :=
  inferInstanceAs (Decidable (∀ _ ∈ _, _))

def NeverCrosses (instrumentId : UInt32) (calls : List BookCall) : Prop :=
  ∀ pre call, pre ++ [call] <+: calls →
    ∀ s, exec instrumentId pre = some s → ¬ s.1.Crossing call

/-! ## Finding the live ids -/

section Chain

variable {m m' : FlatOrderMap} {b : OrderBook} {ptrs : List Nat} {id : UInt64} {j : Nat}

theorem crosses_keys (p : Nat) : Crosses m.capacity_ m.hash m.keys j p ↔
    Crosses m.capacity_ m.home m.cells j p := by
  unfold Crosses FlatOrderMap.keys
  constructor
  · rintro ⟨k, hk, hlt⟩
    obtain ⟨s, hs, rfl⟩ := Option.map_eq_some_iff.mp hk
    exact ⟨s, hs, hlt⟩
  · rintro ⟨s, hs, hlt⟩
    exact ⟨s.key, by rw [hs]; rfl, hlt⟩

theorem stops_keys (key : UInt64) : OpenAddressing.stops (fun k => k) m.keys key =
    OpenAddressing.stops Slot.key m.cells key := by
  ext1 i
  unfold OpenAddressing.stops FlatOrderMap.keys
  cases m.cells i <;> rfl

/-- The index finds an id exactly when an order of that id is stored. -/
theorem found_iff (h : Coherent b ptrs) (hroom : ptrs.length < b.orders_.capacity_)
    (hch : Chained b.orders_.capacity_ b.orders_.hash b.orders_.keys) (id : UInt64) :
    b.found id = true ↔ id ∈ live (b.entries ptrs) := by
  have hmem : id ∈ live (b.entries ptrs) ↔ ∃ p ∈ ptrs, (b.orders_.slots p).key = id := by
    simp only [live, Ledger.ids, entries, List.map_map, List.mem_toFinset, List.mem_map]
    refine exists_congr fun p => and_congr_right fun hp => ?_
    rw [h.arrivals.keyed p hp]
    rfl
  rw [hmem]
  obtain ⟨j, hj⟩ := h.arrivals.probe_returns hroom id
  cases hocc : (b.orders_.slots j).occupied with
  | true =>
      rw [found_of_occupied hj hocc]
      have hjlt := FlatOrderMap.probe_lt h.arrivals.sized hj
      exact iff_of_true rfl ⟨j, (h.arrivals.mem j).mpr ⟨hjlt, hocc⟩,
        FlatOrderMap.probe_key h.arrivals.sized hj hocc⟩
  | false =>
      rw [found_of_free hj hocc]
      constructor
      · intro hfalse
        cases hfalse
      · rintro ⟨p, hp, hkey⟩
        obtain ⟨hplt, hpocc⟩ := (h.arrivals.mem p).mp hp
        have hpj : p ≠ j := by
          rintro rfl
          rw [hocc] at hpocc
          cases hpocc
        -- the free slot where the probe stopped would interrupt the path of `id`
        have hbeyond := h.arrivals.beyond hj hp hkey hpj
        exact (hch p hplt j (FlatOrderMap.probe_lt h.arrivals.sized hj)
          ⟨id, FlatOrderMap.keys_eq_some.mpr ⟨hpocc, hkey⟩, hbeyond⟩
          (FlatOrderMap.keys_eq_none.mpr hocc)).elim

end Chain

/-! ## One call -/

/-- Coherent, with unbroken probe paths and no id stored twice. -/
structure Sound (b : OrderBook) (ptrs : List Nat) : Prop extends Coherent b ptrs where
  chained : Chained b.orders_.capacity_ b.orders_.hash b.orders_.keys
  distinct : (b.entries ptrs).ids.Nodup

namespace Sound

variable {b b' : OrderBook} {ptrs ptrs' : List Nat} {call : BookCall} {answer : Answer}

theorem new (instrumentId : UInt32) : Sound (OrderBook.new instrumentId) [] := by
  refine ⟨Coherent.new instrumentId, ?_, List.nodup_nil⟩
  rintro p _ q _ ⟨k, hk, -⟩
  cases hk

theorem card_live (h : Sound b ptrs) : (live (b.entries ptrs)).card = ptrs.length := by
  rw [live, List.toFinset_card_of_nodup h.distinct, Ledger.ids, entries, List.length_map,
    List.length_map]

theorem removed_lt (h : Coherent b ptrs) {j : Nat} (hrem : b.removed call = some j) :
    j < b.orders_.capacity_ := by
  have hfind : ∀ id, (b.orders_.find id).join = some j → j < b.orders_.capacity_ := by
    intro id hid
    rw [FlatOrderMap.find] at hid
    cases hp : b.orders_.probe id with
    | none => simp [hp] at hid
    | some i =>
        have hij : i = j := by
          cases hocc : (b.orders_.slots i).occupied <;> simp_all
        rw [← hij]
        exact FlatOrderMap.probe_lt h.arrivals.sized hp
  cases call with
  | add order => cases hrem
  | cancel id => exact hfind id hrem
  | execute id qty =>
      unfold removed at hrem
      exact hfind id (Option.filter_eq_some_iff.mp hrem).1

theorem not_relocating (h : Coherent b ptrs) (hno : ¬ b.Crossing call) :
    ¬ b.Relocating call := by
  rintro ⟨j, hrem, hrel⟩
  exact hno ⟨j, hrem, hrel.crosses (removed_lt h hrem) (FlatOrderMap.home_lt h.arrivals.sized)⟩

theorem chained_step (h : Sound b ptrs) (hprog : Progress b ptrs call answer b' ptrs')
    (hno : ¬ b.Crossing call) :
    Chained b'.orders_.capacity_ b'.orders_.hash b'.orders_.keys := by
  have hhash : b'.orders_.hash = b.orders_.hash := by
    ext1 key
    rw [FlatOrderMap.hash, FlatOrderMap.hash, hprog.mask]
  rw [hprog.capacity, hhash]
  rcases hprog.keys with hkeys | ⟨o, j, rfl, hj, hfree, hkeys⟩ | ⟨j, hrem, hkeys⟩
  · rw [hkeys]
    exact h.chained
  · rw [hkeys]
    have hfirst := (FlatOrderMap.probe_eq_some_iff h.arrivals.sized).mp hj
    rw [← stops_keys] at hfirst
    exact h.chained.insert hfirst
  · rw [hkeys]
    apply h.chained.vacate
    intro p hp hcr
    exact hno ⟨j, hrem, p, hp, (crosses_keys p).mp hcr⟩

theorem truthful (h : Sound b ptrs) (hroom : ptrs.length < b.orders_.capacity_)
    (hans : Answers b call answer) : Truthful (b.entries ptrs) call answer := by
  have hfound : ∀ id, b.found id = decide (id ∈ live (b.entries ptrs)) := by
    intro id
    rw [Bool.eq_iff_iff, decide_eq_true_eq]
    exact found_iff h.toCoherent hroom h.chained id
  cases call with
  | add order =>
      cases order with
      | none => exact hans
      | some o =>
          unfold Answers at hans
          rw [hans, hfound, ← decide_not]
          rfl
  | cancel id =>
      unfold Answers at hans
      rw [hans, hfound]
      rfl
  | execute id qty => exact hans

theorem distinct_record {ledger : Ledger} (h : ledger.ids.Nodup)
    (htrue : Truthful ledger call answer) : (ledger.record call answer).ids.Nodup := by
  cases call with
  | add order =>
      cases order with
      | none =>
          rw [show answer = .added false from htrue]
          exact h
      | some o =>
          rw [show answer = .added (decide (o.orderId ∉ live ledger)) from htrue]
          by_cases hlive : o.orderId ∈ live ledger
          · simpa [hlive, Ledger.record] using h
          · have hout : o.orderId ∉ ledger.ids := by simpa [live] using hlive
            simp only [hlive, not_false_eq_true, decide_true, Ledger.record, Ledger.ids,
              List.map_append, List.map_cons, List.map_nil]
            rw [List.nodup_append]
            refine ⟨h, List.nodup_singleton _, ?_⟩
            intro x hx y hy
            rw [List.mem_singleton.mp hy]
            rintro rfl
            exact hout hx
  | cancel id =>
      rw [show answer = .cancelled (decide (id ∈ live ledger)) from htrue]
      by_cases hlive : id ∈ live ledger
      · simp only [hlive, decide_true, Ledger.record]
        exact h.sublist (Ledger.amendLatest_ids fun o o' hnone => by cases hnone)
      · simpa [hlive, Ledger.record] using h
  | execute id qty =>
      obtain ⟨n, rfl⟩ := htrue
      change Ledger.ids (if n = 0 then ledger else _) |>.Nodup
      split_ifs
      · exact h
      · exact h.sublist (Ledger.amendLatest_ids fun o o' => Ledger.fill_orderId)

theorem step (h : Sound b ptrs) (hroom : ptrs.length < b.orders_.capacity_)
    (hans : Answers b call answer) (hprog : Progress b ptrs call answer b' ptrs')
    (hno : ¬ b.Crossing call) : Sound b' ptrs' := by
  refine ⟨hprog.coherent, h.chained_step hprog hno, ?_⟩
  rw [hprog.ledger]
  exact distinct_record h.distinct (h.truthful hroom hans)

/-! ### The top of the book -/

theorem isBest_head (h : Coherent b ptrs) (side : Side) :
    IsBest (b.entries ptrs) side ((b.levels side).head?.map PriceLevel.price_) := by
  have hcovered : ∀ o ∈ b.entries ptrs, o.side = side →
      ∃ lv ∈ b.levels side, lv.price_ = o.price := by
    intro o ho hside
    obtain ⟨p, hp, rfl⟩ := List.mem_map.mp ho
    obtain ⟨lv, hlv, hprice⟩ := h.laddered.covered p hp
    rw [show (b.heap p).side = side from hside] at hlv
    exact ⟨lv, hlv, hprice⟩
  cases hlevels : b.levels side with
  | nil =>
      intro o ho hside
      obtain ⟨lv, hlv, -⟩ := hcovered o ho hside
      rw [hlevels] at hlv
      cases hlv
  | cons lv rest =>
      have hlv : lv ∈ b.levels side := by
        rw [hlevels]
        exact List.mem_cons_self
      have hsorted := h.laddered.sorted side
      rw [hlevels] at hsorted
      constructor
      · obtain ⟨p, hp⟩ := List.exists_mem_of_ne_nil _ (h.laddered.headed side lv hlv)
        obtain ⟨hp, hrest⟩ := mem_queue.mp hp
        obtain ⟨hside, hprice⟩ := restsAt_iff.mp hrest
        exact ⟨_, List.mem_map.mpr ⟨p, hp, rfl⟩, hside, hprice⟩
      · intro o ho hside
        obtain ⟨x, hx, hprice⟩ := hcovered o ho hside
        rw [hlevels] at hx
        rw [← hprice]
        rcases List.mem_cons.mp hx with rfl | hx
        · cases side <;> exact UInt64.le_refl _
        · have hcmp := (List.pairwise_cons.mp hsorted).1 x hx
          rw [cmp_iff] at hcmp
          cases side <;> exact UInt64.le_of_lt hcmp

theorem showsTop (h : Sound b ptrs) : ShowsTop b (b.entries ptrs) where
  orderCount := by rw [h.card_live, ← h.arrivals.size]; rfl
  bestBid := isBest_head h.toCoherent .buy
  bestAsk := isBest_head h.toCoherent .sell

end Sound

/-! ## Runs -/

/-- **In a run that never breaks a probe path every state shows the right count
and top of book, and every add and cancel is answered truthfully.** -/
theorem showsTop_of_neverCrosses (instrumentId : UInt32) (calls : List BookCall)
    (hroom : KeepsLiveRoom instrumentId calls) (hno : NeverCrosses instrumentId calls) :
    (∀ pre, pre <+: calls → ∃ s, exec instrumentId pre = some s ∧ ShowsTop s.1 s.2) ∧
      ∀ pre call, pre ++ [call] <+: calls → ∃ s answer b',
        exec instrumentId pre = some s ∧ call.run s.1 = some (answer, b') ∧
          Truthful s.2 call answer := by
  have hlen : ∀ pre, pre <+: calls → ∀ s, exec instrumentId pre = some s →
      ∀ ptrs, Sound s.1 ptrs → s.1.entries ptrs = s.2 → ptrs.length < s.1.orders_.capacity_ := by
    intro pre hpre s hs ptrs hsound hent
    rw [← hsound.card_live, hent]
    exact hroom pre ((List.mem_inits _ _).mpr hpre) s hs
  have hrun : ∀ pre, pre <+: calls → ∃ s, exec instrumentId pre = some s ∧
      ∃ ptrs, Sound s.1 ptrs ∧ s.1.entries ptrs = s.2 := by
    intro pre hpre
    apply Runs.exec_total
      (fun _ (s : Recorded) => ∃ ptrs, Sound s.1 ptrs ∧ s.1.entries ptrs = s.2)
    · exact ⟨[], Sound.new instrumentId, rfl⟩
    · rintro p call ⟨b, ledger⟩ hp hexec ⟨ptrs, hsound, hent⟩
      have hp' := hp.trans hpre
      have hroom' := hlen p ((List.prefix_append p [call]).trans hp') _ hexec ptrs hsound hent
      obtain ⟨answer, b', hrun, hans, hgood, -⟩ := hsound.toCoherent.steps hroom' call
      have hcross := hno p call hp' _ hexec
      obtain ⟨ptrs', hprog⟩ := hgood (Sound.not_relocating hsound.toCoherent hcross)
      refine ⟨(b', ledger.record call answer), step_eq_some hrun, ptrs',
        hsound.step hroom' hans hprog hcross, ?_⟩
      rw [hprog.ledger, show b.entries ptrs = ledger from hent]
  constructor
  · intro pre hpre
    obtain ⟨s, hexec, ptrs, hsound, hent⟩ := hrun pre hpre
    refine ⟨s, hexec, ?_⟩
    rw [← hent]
    exact hsound.showsTop
  · intro pre call hpre
    have hpre' := (List.prefix_append pre [call]).trans hpre
    obtain ⟨s, hexec, ptrs, hsound, hent⟩ := hrun pre hpre'
    have hroom' := hlen pre hpre' s hexec ptrs hsound hent
    obtain ⟨answer, b', hrun', hans, -⟩ := hsound.toCoherent.steps hroom' call
    refine ⟨s, answer, b', hexec, hrun', ?_⟩
    rw [← hent]
    exact hsound.truthful hroom' hans

/-- The ids 172 and 2558 share a natural slot; the first is cancelled. -/
def strandingCancel : List BookCall :=
  [.add (some (Order.make 172 1 .buy 100 5)), .add (some (Order.make 2558 1 .buy 101 5)),
    .cancel 172]

/-- The second can then not be cancelled, though it is live. -/
theorem strandingCancel_loses_order :
    ¬ ∀ (instrumentId : UInt32) (calls : List BookCall), KeepsLiveRoom instrumentId calls →
      ∀ pre call, pre ++ [call] <+: calls → ∃ s answer b',
        exec instrumentId pre = some s ∧ call.run s.1 = some (answer, b') ∧
          Truthful s.2 call answer := by
  intro hall
  obtain ⟨s, answer, b', hexec, hrun, htrue⟩ := hall 1 (strandingCancel ++ [.cancel 2558])
    (by decide) strandingCancel (.cancel 2558) List.prefix_rfl
  have hanswer : (exec 1 strandingCancel).bind
      (fun s => ((BookCall.cancel 2558).run s.1).map Prod.fst) = some (.cancelled false) := by
    decide
  have hlive : (exec 1 strandingCancel).map (fun s => decide (2558 ∈ live s.2)) =
      some true := by decide
  rw [hexec, Option.bind_some, hrun, Option.map_some] at hanswer
  rw [hexec, Option.map_some] at hlive
  have hfalse : answer = .cancelled false := Option.some.inj hanswer
  rw [hfalse] at htrue
  have hdec : false = decide (2558 ∈ live s.2) := Answer.cancelled.inj htrue
  rw [Option.some.inj hlive] at hdec
  cases hdec

end UltraHft.MarketData.OrderBook
