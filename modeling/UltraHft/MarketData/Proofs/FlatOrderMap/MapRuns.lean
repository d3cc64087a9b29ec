import UltraHft.MarketData.Proofs.FlatOrderMap.FiniteMap

/-!
# Runs of insertions, erasures and clears

A run on a new table that keeps the number of live keys below the capacity
behaves as a finite map after each of its calls if and only if none of its
erasures strands an entry.
-/

namespace UltraHft.MarketData.FlatOrderMap

open UltraHft.Lib

inductive MapCall where
  | insert (key : UInt64) (order : Order)
  | erase (key : UInt64)
  | clear
  deriving DecidableEq

namespace MapCall

def run (m : FlatOrderMap) : MapCall → Option FlatOrderMap
  | insert key order => (m.insert key order).map Prod.snd
  | erase key => (m.erase key).map Prod.snd
  | clear => some m.clear

def apply (s : Contents) : MapCall → Contents
  | insert key order => s.insert key order
  | erase key => s.erase key
  | clear => ∅

end MapCall

/-- The keys inserted and since neither erased nor cleared, each with the order
inserted last. -/
def live (calls : List MapCall) : Contents := calls.foldl MapCall.apply ∅

def exec (m : FlatOrderMap) (calls : List MapCall) : Option FlatOrderMap :=
  Runs.exec MapCall.run m calls

/-- The number of live keys stays below `capacity()`. -/
def KeepsBelow (capacity : UInt64) (calls : List MapCall) : Prop :=
  ∀ pre ∈ calls.inits, (live pre).keys.card < (new capacity).capacity_

instance (capacity : UInt64) (calls : List MapCall) : Decidable (KeepsBelow capacity calls) :=
  inferInstanceAs (Decidable (∀ _ ∈ _, _))

/-- After `calls` the table answers as a finite map: `find` on every key, the
size, and each `erase` at its time. -/
def ActsAsMap (capacity : UInt64) (calls : List MapCall) : Prop :=
  (∃ m, exec (new capacity) calls = some m ∧
    (∀ key, m.findOrder key = some ((live calls).lookup key)) ∧
    m.size_ = (live calls).keys.card) ∧
  ∀ pre key, pre ++ [.erase key] <+: calls →
    ∃ m, exec (new capacity) pre = some m ∧
      (m.erase key).map Prod.fst = some (decide (key ∈ live pre))

def NeverStrands (capacity : UInt64) (calls : List MapCall) : Prop :=
  ∀ pre key, pre ++ [.erase key] <+: calls →
    ∀ m, exec (new capacity) pre = some m → ¬ m.Stranding key

section Run

variable {capacity : UInt64} {calls pre : List MapCall} {key : UInt64}

theorem live_snoc (pre : List MapCall) (call : MapCall) :
    live (pre ++ [call]) = call.apply (live pre) := by
  simp [live]

theorem KeepsBelow.card_lt (h : KeepsBelow capacity calls) (hpre : pre <+: calls) :
    (live pre).keys.card < (new capacity).capacity_ :=
  h pre ((List.mem_inits _ _).mpr hpre)

theorem KeepsBelow.of_prefix (h : KeepsBelow capacity calls) (hpre : pre <+: calls) :
    KeepsBelow capacity pre := by
  intro p hp
  exact h.card_lt (((List.mem_inits _ _).mp hp).trans hpre)

theorem NeverStrands.of_prefix (h : NeverStrands capacity calls) (hpre : pre <+: calls) :
    NeverStrands capacity pre :=
  fun p k hp => h p k (hp.trans hpre)

theorem new_indexed (hpos : 0 < (new capacity).capacity_) : Indexed (new capacity) ∅ := by
  have hcells : ∀ p, (new capacity).cells p = none := fun _ => rfl
  refine ⟨new_sized hpos, ?_, ?_, ?_, rfl⟩
  · rintro p _ q _ ⟨a, ha, -⟩
    rw [hcells] at ha
    cases ha
  · intro p _ q _ a b ha
    rw [hcells] at ha
    cases ha
  · intro k o
    simp [hcells]

theorem Indexed.mem_of_stranding {m : FlatOrderMap} {s : Contents} (h : Indexed m s)
    (hst : m.Stranding key) : key ∈ s := by
  obtain ⟨j, hj, hocc, hkeyj, -⟩ := hst
  exact h.mem_iff.mpr ⟨j, hj, _, cells_eq_some.mpr ⟨hocc, rfl⟩, hkeyj⟩

def MapCall.Strands (m : FlatOrderMap) : MapCall → Prop
  | erase key => m.Stranding key
  | _ => False

/-- One call: it keeps the table an index of the live keys, or it strands an
entry, and `find` misses a live key. -/
theorem MapCall.run_indexed {m : FlatOrderMap} {s : Contents} (h : Indexed m s)
    (hroom : s.keys.card < m.capacity_) (call : MapCall) :
    ∃ m', call.run m = some m' ∧ m'.capacity_ = m.capacity_ ∧
      (¬ call.Strands m → Indexed m' (call.apply s)) ∧
      (call.Strands m → ∃ k ∈ call.apply s, m'.findOrder k = some none) := by
  cases call with
  | insert key order =>
      obtain ⟨j, m', hins, hcap, h'⟩ := h.insert hroom key order
      exact ⟨m', by simp [run, hins], hcap, fun _ => h', False.elim⟩
  | erase key =>
      by_cases hkey : key ∈ s
      · obtain ⟨m', her, hcap, h', hlost⟩ := h.erase_present hroom hkey
        exact ⟨m', by simp [run, her], hcap, h', hlost⟩
      · have hsame : s.erase key = s := by
          apply Finmap.ext_lookup
          intro k
          by_cases hk : k = key
          · rw [hk, Finmap.lookup_erase, Finmap.lookup_eq_none.mpr hkey]
          · rw [Finmap.lookup_erase_ne hk]
        refine ⟨m, by simp [run, h.erase_absent hroom hkey], rfl, ?_, ?_⟩
        · intro _
          rwa [apply, hsame]
        · intro hst
          exact (hkey (h.mem_of_stranding hst)).elim
  | clear => exact ⟨m.clear, rfl, rfl, fun _ => h.clear, False.elim⟩

theorem neverStrands_iff : NeverStrands capacity calls ↔
    ∀ pre call, pre ++ [call] <+: calls → ∀ m, exec (new capacity) pre = some m →
      ¬ call.Strands m := by
  constructor
  · intro hno pre call hpre m hexec
    cases call with
    | erase key => exact hno pre key hpre m hexec
    | insert key order => exact id
    | clear => exact id
  · intro hno pre key hpre
    exact hno pre (.erase key) hpre

theorem exec_indexed (hbelow : KeepsBelow capacity calls)
    (hno : NeverStrands capacity calls) :
    ∃ m, exec (new capacity) calls = some m ∧ m.capacity_ = (new capacity).capacity_ ∧
      Indexed m (live calls) := by
  have hpos : 0 < (new capacity).capacity_ :=
    (Nat.zero_le _).trans_lt (hbelow.card_lt (List.nil_prefix))
  apply Runs.exec_total
    (fun pre m => m.capacity_ = (new capacity).capacity_ ∧ Indexed m (live pre))
  · exact ⟨rfl, new_indexed hpos⟩
  · intro pre call m hpre hexec ⟨hcap, h⟩
    have hroom := hbelow.card_lt ((List.prefix_append pre [call]).trans hpre)
    rw [← hcap] at hroom
    obtain ⟨m', hrun, hcap', h', -⟩ := call.run_indexed h hroom
    rw [live_snoc]
    exact ⟨m', hrun, hcap'.trans hcap, h' (neverStrands_iff.mp hno pre call hpre m hexec)⟩

theorem actsAsMap_of_neverStrands (hbelow : KeepsBelow capacity calls)
    (hno : NeverStrands capacity calls) : ActsAsMap capacity calls := by
  constructor
  · obtain ⟨m, hexec, hcap, h⟩ := exec_indexed hbelow hno
    have hroom : (live calls).keys.card < m.capacity_ := by
      rw [hcap]
      exact hbelow.card_lt List.prefix_rfl
    exact ⟨m, hexec, fun key => h.findOrder_eq hroom, h.size⟩
  · intro pre key hpre
    have hpre' := (List.prefix_append pre [.erase key]).trans hpre
    obtain ⟨m, hexec, hcap, h⟩ := exec_indexed (hbelow.of_prefix hpre') (hno.of_prefix hpre')
    have hroom : (live pre).keys.card < m.capacity_ := by
      rw [hcap]
      exact hbelow.card_lt hpre'
    refine ⟨m, hexec, ?_⟩
    by_cases hkey : key ∈ live pre
    · obtain ⟨m', her, -⟩ := h.erase_present hroom hkey
      simp [her, hkey]
    · simp [h.erase_absent hroom hkey, hkey]

/-- A stranding erasure shows at once: `find` misses a live key. -/
theorem finds_iff_neverStrands (hbelow : KeepsBelow capacity calls) :
    (∀ pre, pre <+: calls → ∃ m, exec (new capacity) pre = some m ∧
      ∀ key, m.findOrder key = some ((live pre).lookup key)) ↔ NeverStrands capacity calls := by
  have hpos : 0 < (new capacity).capacity_ :=
    (Nat.zero_le _).trans_lt (hbelow.card_lt (List.nil_prefix))
  rw [neverStrands_iff]
  apply Runs.exec_iff_good
    (fun pre m => m.capacity_ = (new capacity).capacity_ ∧ Indexed m (live pre))
    (fun pre m => ∀ key, m.findOrder key = some ((live pre).lookup key))
    (fun m call => ¬ call.Strands m) ⟨rfl, new_indexed hpos⟩
  · intro pre m hpre _ ⟨hcap, hm⟩ key
    apply hm.findOrder_eq
    rw [hcap]
    exact hbelow.card_lt hpre
  · intro pre call m hpre _ ⟨hcap, hm⟩
    have hroom := hbelow.card_lt ((List.prefix_append pre [call]).trans hpre)
    rw [← hcap] at hroom
    obtain ⟨m', hrun, hcap', hgood, hlost⟩ := call.run_indexed hm hroom
    rw [live_snoc]
    refine ⟨m', hrun, fun hno => ⟨hcap'.trans hcap, hgood hno⟩, ?_⟩
    intro hst hfind
    obtain ⟨k, hk, hmiss⟩ := hlost (not_not.mp hst)
    have hnone := (hfind k).symm.trans hmiss
    exact Finmap.lookup_eq_none.mp (Option.some.inj hnone) hk

end Run

/-- **The index acts as a finite map throughout a run exactly when no erasure of
the run strands an entry.** -/
theorem actsAsMap_iff_neverStrands (capacity : UInt64) (calls : List MapCall)
    (hbelow : KeepsBelow capacity calls) :
    (∀ pre, pre <+: calls → ActsAsMap capacity pre) ↔ NeverStrands capacity calls := by
  constructor
  · intro h
    rw [← finds_iff_neverStrands hbelow]
    intro pre hpre
    obtain ⟨⟨m, hexec, hfind, -⟩, -⟩ := h pre hpre
    exact ⟨m, hexec, hfind⟩
  · intro hno pre hpre
    exact actsAsMap_of_neverStrands (hbelow.of_prefix hpre) (hno.of_prefix hpre)

/-- Insert two keys of one natural slot and erase the first. -/
def collidingErase : List MapCall :=
  [.insert 1 (Order.make 1 1 .buy 100 5), .insert 11 (Order.make 11 1 .buy 100 5), .erase 1]

theorem actsAsMap_iff_neverStrands_collidingErase :
    KeepsBelow 4 collidingErase ∧
      ((∀ pre, pre <+: collidingErase → ActsAsMap 4 pre) ↔ NeverStrands 4 collidingErase) :=
  ⟨by decide, actsAsMap_iff_neverStrands 4 collidingErase (by decide)⟩

/-- The surviving key of the collision is live, and `find` misses it. -/
theorem collidingErase_loses_key :
    ¬ ∀ (capacity : UInt64) (calls : List MapCall),
      KeepsBelow capacity calls → ActsAsMap capacity calls := by
  intro hall
  obtain ⟨⟨m, hexec, hfind, -⟩, -⟩ := hall 4 collidingErase (by decide)
  have hlost : (exec (new 4) collidingErase).bind (fun m => m.findOrder 11) = some none := by
    decide
  rw [hexec, Option.bind_some, hfind 11] at hlost
  exact absurd hlost (by decide)

end UltraHft.MarketData.FlatOrderMap
