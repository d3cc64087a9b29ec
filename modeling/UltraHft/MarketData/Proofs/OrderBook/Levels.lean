import UltraHft.MarketData.OrderBook

/-!
# The sorted level vectors

Each vector is strictly sorted by the comparator of its side.  On such a vector
the bisection of `findOrInsert` and the linear search of `unlink` end at the
level of the price, if there is one, and an insertion keeps it sorted.
-/

namespace UltraHft.MarketData.OrderBook

open UltraHft.Lib

/-! ## The two vectors of a book -/

section Sides

variable (b : OrderBook) (side : Side) (levels : List PriceLevel)

@[simp] theorem levels_setLevels : (b.setLevels side levels).levels side = levels := by
  cases side <;> rfl

theorem levels_setLevels_of_ne {side' : Side} (h : side' ≠ side) :
    (b.setLevels side levels).levels side' = b.levels side' := by
  cases side <;> cases side' <;> first | rfl | exact (h rfl).elim

@[simp] theorem orders_setLevels : (b.setLevels side levels).orders_ = b.orders_ := by
  cases side <;> rfl

@[simp] theorem heap_setLevels : (b.setLevels side levels).heap = b.heap := by
  rw [heap, heap, orders_setLevels]

@[simp] theorem levels_orders (orders_ : FlatOrderMap) :
    ({ b with orders_ } : OrderBook).levels side = b.levels side := by
  cases side <;> rfl

end Sides

/-! ## The comparators -/

section Cmp

variable {side : Side} {p q r : UInt64}

theorem cmp_iff : cmp side p q = true ↔
    match side with
    | .buy => q < p
    | .sell => p < q := by
  cases side <;> simp [cmp]

theorem cmp_irrefl (side : Side) (p : UInt64) : ¬ cmp side p p := by
  rw [cmp_iff]
  cases side <;> simp

theorem cmp_trans (h : cmp side p q) (h' : cmp side q r) : cmp side p r := by
  rw [cmp_iff] at *
  cases side with
  | buy => exact UInt64.lt_trans h' h
  | sell => exact UInt64.lt_trans h h'

theorem cmp_of_not (h : ¬ cmp side p q) (hne : p ≠ q) : cmp side q p := by
  rw [cmp_iff] at *
  cases side with
  | buy => exact UInt64.lt_of_le_of_ne (UInt64.not_lt.mp h) hne
  | sell => exact UInt64.lt_of_le_of_ne (UInt64.not_lt.mp h) hne.symm

end Cmp

/-- Strictly sorted, best price first. -/
def Sorted (side : Side) (levels : List PriceLevel) : Prop :=
  levels.Pairwise fun x y => cmp side x.price_ y.price_

section Search

variable {side : Side} {levels pre post : List PriceLevel} {lv lv' x : PriceLevel}
  {price : UInt64}

theorem Sorted.replace (h : Sorted side (pre ++ lv :: post)) (hp : lv'.price_ = lv.price_) :
    Sorted side (pre ++ lv' :: post) := by
  simp only [Sorted, List.pairwise_append, List.pairwise_cons, List.mem_cons] at h ⊢
  obtain ⟨hpre, ⟨hlv, hpost⟩, hcross⟩ := h
  refine ⟨hpre, ⟨fun y hy => hp ▸ hlv y hy, hpost⟩, ?_⟩
  rintro y hy z (rfl | hz)
  · rw [hp]
    exact hcross y hy lv (.inl rfl)
  · exact hcross y hy z (.inr hz)

theorem Sorted.remove (h : Sorted side (pre ++ lv :: post)) : Sorted side (pre ++ post) :=
  h.sublist ((List.Sublist.refl pre).append (List.sublist_cons_self lv post))

theorem Sorted.price_ne (h : Sorted side (pre ++ lv :: post)) (hx : x ∈ pre ++ post) :
    x.price_ ≠ lv.price_ := by
  simp only [Sorted, List.pairwise_append, List.pairwise_cons] at h
  intro heq
  apply cmp_irrefl side lv.price_
  rcases List.mem_append.mp hx with hx | hx
  · have hcmp := h.2.2 x hx lv List.mem_cons_self
    rwa [heq] at hcmp
  · have hcmp := h.2.1.1 x hx
    rwa [heq] at hcmp

theorem Sorted.partitioned (h : Sorted side levels) (price : UInt64) :
    LowerBound.Partitioned
      (fun i => (levels[i]?).any fun lv => cmp side lv.price_ price) levels.length := by
  intro i j hij hj hbefore
  have hi : i < levels.length := by omega
  simp only [List.getElem?_eq_getElem, hi, hj, Option.any_some] at hbefore ⊢
  rcases Nat.lt_or_eq_of_le hij with hlt | rfl
  · exact cmp_trans (List.pairwise_iff_getElem.mp h i j hi hj hlt) hbefore
  · exact hbefore

/-- The bisection splits the vector into the prices before the given one and
the others. -/
theorem lowerBound_split (h : Sorted side levels) (price : UInt64) :
    ∃ pre post, levels = pre ++ post ∧ lowerBound levels price (cmp side) = pre.length ∧
      (∀ x ∈ pre, cmp side x.price_ price) ∧ ∀ x ∈ post, ¬ cmp side x.price_ price := by
  have hrange : 0 + levels.length ≤ levels.length := by omega
  have hspec := LowerBound.lowerBound_spec (h.partitioned price)
    (Nat.le_refl levels.length) hrange (fun i hi => by omega) (fun i hi hlt => by omega)
  rw [← lowerBound] at hspec
  obtain ⟨hle, hbelow, habove⟩ := hspec
  refine ⟨levels.take (lowerBound levels price (cmp side)),
    levels.drop (lowerBound levels price (cmp side)), ?_, ?_, ?_, ?_⟩
  · rw [List.take_append_drop]
  · rw [List.length_take]
    exact (Nat.min_eq_left hle).symm
  · intro x hx
    obtain ⟨i, hi, rfl⟩ := List.mem_take_iff_getElem.mp hx
    have hlt : i < levels.length := by omega
    simpa [List.getElem?_eq_getElem hlt] using hbelow i (by omega)
  · intro x hx
    obtain ⟨i, hi, rfl⟩ := List.mem_drop_iff_getElem.mp hx
    have hlt : i + lowerBound levels price (cmp side) < levels.length := by omega
    have hcmp := habove (lowerBound levels price (cmp side) + i) (by omega) (by omega)
    simpa [Nat.add_comm, List.getElem?_eq_getElem hlt] using hcmp

theorem insertIdx_append_length (a : PriceLevel) :
    (pre ++ post).insertIdx pre.length a = pre ++ a :: post := by
  induction pre with
  | nil => rfl
  | cons x pre ih => rw [List.cons_append, List.length_cons, List.insertIdx_succ_cons, ih]; rfl

/-- `findOrInsert` ends at the level of the price: one of the vector, or a new
empty one in its sorted place. -/
theorem findOrInsert_spec (h : Sorted side levels) (price : UInt64) :
    ∃ pre lv post, findOrInsert levels price (cmp side) = (pre ++ lv :: post, pre.length) ∧
      lv.price_ = price ∧ Sorted side (pre ++ lv :: post) ∧
      (levels = pre ++ lv :: post ∨ levels = pre ++ post ∧ lv = PriceLevel.make price) := by
  obtain ⟨pre, post, rfl, hlb, hpre, hpost⟩ := lowerBound_split h price
  have hget : (pre ++ post)[pre.length]? = post.head? := by
    rw [List.getElem?_append_right (Nat.le_refl _), Nat.sub_self, List.head?_eq_getElem?]
  unfold findOrInsert
  dsimp only
  rw [hlb, hget]
  by_cases hhit : (post.head?.any fun lv => lv.price_ == price) = true
  · rw [if_pos hhit]
    cases post with
    | nil => simp at hhit
    | cons lv post =>
        exact ⟨pre, lv, post, rfl, by simpa using hhit, h, .inl rfl⟩
  · rw [if_neg hhit, insertIdx_append_length]
    refine ⟨pre, PriceLevel.make price, post, rfl, rfl, ?_, .inr ⟨rfl, rfl⟩⟩
    obtain ⟨hsort, hsort', hcross⟩ := List.pairwise_append.mp h
    refine List.pairwise_append.mpr ⟨hsort, List.pairwise_cons.mpr ⟨?_, hsort'⟩, ?_⟩
    · -- the first level behind has another price, the later ones lie behind it
      intro y hy
      cases post with
      | nil => cases hy
      | cons z post =>
          have hz : cmp side price z.price_ :=
            cmp_of_not (hpost z List.mem_cons_self) (by simpa using hhit)
          rcases List.mem_cons.mp hy with rfl | hy
          · exact hz
          · exact cmp_trans hz ((List.pairwise_cons.mp hsort').1 y hy)
    · intro x hx y hy
      rcases List.mem_cons.mp hy with rfl | hy
      · exact hpre x hx
      · exact hcross x hx y hy

theorem findIdx_eq (h : Sorted side (pre ++ lv :: post)) (hp : lv.price_ = price) :
    (pre ++ lv :: post).findIdx (fun x => x.price_ == price) = pre.length := by
  rw [List.findIdx_eq (by simp)]
  constructor
  · simp [hp]
  · intro j hj
    rw [List.getElem_append_left hj]
    have hne := h.price_ne (List.mem_append_left post (List.getElem_mem hj))
    simpa [hp] using hne

end Search

end UltraHft.MarketData.OrderBook
