import Mathlib.Algebra.Ring.Nat
import Mathlib.Data.List.Nodup

/-!
# Tallies

A dictionary that counts keys and remembers the order in which it met them.
-/

namespace UltraHft.Lib.Tally

variable {κ : Type*} [DecidableEq κ] {counts : List (κ × ℕ)} {keys : List κ} {key k : κ} {n : ℕ}

/-- The count of a key goes up by one, from zero if the key is new. -/
def bump (counts : List (κ × ℕ)) (key : κ) : List (κ × ℕ) :=
  if key ∈ counts.map Prod.fst then
    counts.map fun e => if e.1 = key then (e.1, e.2 + 1) else e
  else counts ++ [(key, 1)]

/-- The dictionary has each of the keys once, with the number of its occurrences. -/
structure Counts (counts : List (κ × ℕ)) (keys : List κ) : Prop where
  distinct : (counts.map Prod.fst).Nodup
  count : ∀ k n, (k, n) ∈ counts ↔ 0 < n ∧ keys.count k = n
  total : (counts.map Prod.snd).sum = keys.length

theorem counts_nil : Counts ([] : List (κ × ℕ)) [] where
  distinct := List.nodup_nil
  count := by
    intro k n
    simp only [List.not_mem_nil, List.count_nil, false_iff]
    omega
  total := rfl

namespace Counts

theorem mem_keys (h : Counts counts keys) : key ∈ counts.map Prod.fst ↔ key ∈ keys := by
  constructor
  · intro hkey
    obtain ⟨e, he, rfl⟩ := List.mem_map.mp hkey
    obtain ⟨hpos, hcount⟩ := (h.count e.1 e.2).mp he
    exact List.count_pos_iff.mp (by omega)
  · intro hkey
    have hpos := List.count_pos_iff.mpr hkey
    exact List.mem_map.mpr ⟨(key, keys.count key), (h.count _ _).mpr ⟨hpos, rfl⟩, rfl⟩

theorem count_snoc (keys : List κ) (key k : κ) :
    (keys ++ [key]).count k = keys.count k + if k = key then 1 else 0 := by
  rw [List.count_append, List.count_singleton]
  by_cases hk : k = key
  · simp [hk]
  · simp [hk, Ne.symm hk]

theorem map_fst_raised (counts : List (κ × ℕ)) (key : κ) :
    (counts.map fun e => if e.1 = key then (e.1, e.2 + 1) else e).map Prod.fst =
      counts.map Prod.fst := by
  rw [List.map_map]
  apply List.map_congr_left
  intro e _
  rw [Function.comp]
  split_ifs <;> rfl

theorem sum_raised (hdistinct : (counts.map Prod.fst).Nodup) (hkey : key ∈ counts.map Prod.fst) :
    ((counts.map fun e => if e.1 = key then (e.1, e.2 + 1) else e).map Prod.snd).sum =
      (counts.map Prod.snd).sum + 1 := by
  induction counts with
  | nil => cases hkey
  | cons e counts ih =>
      rw [List.map_cons, List.nodup_cons] at hdistinct
      rw [List.map_cons, List.map_cons, List.map_cons, List.sum_cons, List.sum_cons]
      by_cases he : e.1 = key
      · subst he
        have hrest : (counts.map fun e' => if e'.1 = e.1 then (e'.1, e'.2 + 1) else e') =
            counts := by
          conv_rhs => rw [← List.map_id counts]
          apply List.map_congr_left
          intro e' he'
          exact if_neg fun heq => hdistinct.1 (List.mem_map.mpr ⟨e', he', heq⟩)
        rw [hrest, if_pos rfl]
        omega
      · have hmem : key ∈ counts.map Prod.fst := by
          rcases List.mem_cons.mp hkey with heq | hmem
          · exact absurd heq.symm he
          · exact hmem
        rw [if_neg he, ih hdistinct.2 hmem]
        omega

theorem bump (h : Counts counts keys) (key : κ) :
    Counts (bump counts key) (keys ++ [key]) := by
  unfold Tally.bump
  split_ifs with hkey
  · constructor
    · rw [map_fst_raised]
      exact h.distinct
    · intro k n
      rw [List.mem_map, count_snoc]
      constructor
      · rintro ⟨⟨k', n'⟩, he, heq⟩
        obtain ⟨hpos, hcount⟩ := (h.count k' n').mp he
        dsimp only at heq
        split_ifs at heq with hk
        · obtain ⟨rfl, rfl⟩ := Prod.mk.inj heq
          rw [if_pos hk]
          omega
        · obtain ⟨rfl, rfl⟩ := Prod.mk.inj heq
          rw [if_neg hk]
          exact ⟨hpos, hcount⟩
      · rintro ⟨hpos, hcount⟩
        by_cases hk : k = key
        · subst hk
          have hmem := List.count_pos_iff.mpr (h.mem_keys.mp hkey)
          refine ⟨(k, keys.count k), (h.count _ _).mpr ⟨hmem, rfl⟩, ?_⟩
          rw [if_pos rfl] at hcount
          rw [if_pos rfl, hcount]
        · rw [if_neg hk] at hcount
          exact ⟨(k, n), (h.count _ _).mpr ⟨hpos, hcount⟩, if_neg hk⟩
    · rw [sum_raised h.distinct hkey, h.total, List.length_append]
      rfl
  · have hnone : keys.count key = 0 := by
      rw [List.count_eq_zero]
      exact fun hmem => hkey (h.mem_keys.mpr hmem)
    constructor
    · rw [List.map_append, List.map_singleton, ← List.concat_eq_append]
      exact List.Nodup.concat hkey h.distinct
    · intro k n
      rw [List.mem_append, List.mem_singleton, h.count, count_snoc, Prod.mk.injEq]
      by_cases hk : k = key
      · rw [if_pos hk, hk, hnone]
        simp only [true_and]
        omega
      · rw [if_neg hk]
        simp [hk]
    · rw [List.map_append, List.sum_append, h.total, List.length_append]
      rfl

theorem perm {counts' : List (κ × ℕ)} (h : Counts counts keys) (hperm : counts'.Perm counts) :
    Counts counts' keys where
  distinct := (hperm.map Prod.fst).nodup_iff.mpr h.distinct
  count := fun k n => hperm.mem_iff.trans (h.count k n)
  total := by rw [← h.total, (hperm.map Prod.snd).sum_nat]

end Counts

end UltraHft.Lib.Tally
