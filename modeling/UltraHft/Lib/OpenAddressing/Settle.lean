import UltraHft.Lib.OpenAddressing.Shift

/-!
# Where the hole settles

The erased cell `o` is followed by a run of occupied cells.  The strict shift
leaves its hole at the first cell of the run across which no later entry is
displaced (`Settles`), and the table stays chained unless that cell is the home
of a later entry of the run (`Strands`).  Nothing moves at all when the hole
settles at `o` itself, which is the negation of `Relocates`.

All three predicates read the table before the erasure; the contents of `o`
itself are irrelevant to them.
-/

namespace UltraHft.Lib.OpenAddressing

open UltraHft.Lib.Cyclic

variable {α : Type*}

/-- `p` is in the run of occupied cells that follows `o`. -/
def InRun (n : Nat) (c : Nat → Option α) (o p : Nat) : Prop :=
  p < n ∧ 0 < dist n o p ∧
    ∀ q < n, 0 < dist n o q → dist n o q ≤ dist n o p → c q ≠ none

/-- Some entry of the run has its home before `o`. -/
def Relocates (n : Nat) (home : α → Nat) (c : Nat → Option α) (o : Nat) : Prop :=
  ∃ p a, InRun n c o p ∧ c p = some a ∧ dist n o p < dist n (home a) p

/-- `h` is the first cell from `o` on before which no later entry of the run
has its home. -/
structure Settles (n : Nat) (home : α → Nat) (c : Nat → Option α) (o h : Nat) : Prop where
  lt : h < n
  behind : ∀ p a, InRun n c o p → dist n o h < dist n o p → c p = some a →
    dist n (home a) p ≤ dist n h p
  least : ∀ q < n, dist n o q < dist n o h →
    ∃ p a, InRun n c o p ∧ dist n o q < dist n o p ∧ c p = some a ∧
      dist n q p < dist n (home a) p

/-- The hole settles on the home of a later entry of the run. -/
def Strands (n : Nat) (home : α → Nat) (c : Nat → Option α) (o : Nat) : Prop :=
  ∃ h p a, Settles n home c o h ∧ InRun n c o p ∧ dist n o h < dist n o p ∧
    c p = some a ∧ home a = h

section Settle

variable {n : Nat} {home : α → Nat} {c c₀ c' : Nat → Option α} {o e h h' : Nat}

theorem Settles.unique (ho : o < n) (hh : Settles n home c o h)
    (hh' : Settles n home c o h') : h = h' := by
  apply dist_inj ho hh.lt hh'.lt
  have hle : ∀ {x y}, Settles n home c o x → Settles n home c o y →
      ¬ dist n o x < dist n o y := by
    intro x y hx hy hlt
    obtain ⟨p, a, hrun, hxp, ha, hdisp⟩ := hy.least x hx.lt hlt
    have := hx.behind p a hrun hxp ha
    omega
  have h₁ := hle hh hh'
  have h₂ := hle hh' hh
  omega

/-- A relocated entry has the erased cell on its probe path. -/
theorem Relocates.crosses (ho : o < n) (hhome : ∀ a, home a < n)
    (hrel : Relocates n home c o) : ∃ p < n, Crosses n home c o p := by
  obtain ⟨p, a, hrun, ha, hlt⟩ := hrel
  have hne : o ≠ p := by
    rintro rfl
    have hpos := hrun.2.1
    rw [dist_self ho] at hpos
    exact lt_irrefl 0 hpos
  exact ⟨p, hrun.1, a, ha, dist_between (hhome a) ho hrun.1 hne hlt⟩

theorem settles_self_iff (ho : o < n) : Settles n home c o o ↔ ¬ Relocates n home c o := by
  constructor
  · rintro hs ⟨p, a, hrun, ha, hlt⟩
    have hpos : dist n o o < dist n o p := by rw [dist_self ho]; exact hrun.2.1
    have := hs.behind p a hrun hpos ha
    omega
  · intro hno
    refine ⟨ho, ?_, ?_⟩
    · intro p a hrun _ ha
      by_contra hlt
      exact hno ⟨p, a, hrun, ha, by omega⟩
    · intro q _ hlt
      rw [dist_self ho] at hlt
      omega

theorem inRun_congr (hc : ∀ p < n, 0 < dist n o p → c p = c₀ p) {p : Nat} :
    InRun n c o p ↔ InRun n c₀ o p := by
  unfold InRun
  refine and_congr_right fun _ => and_congr_right fun _ => ?_
  refine forall_congr' fun q => forall_congr' fun hq => forall_congr' fun hpos => ?_
  rw [hc q hq hpos]

theorem relocates_congr (hc : ∀ p < n, 0 < dist n o p → c p = c₀ p) :
    Relocates n home c o ↔ Relocates n home c₀ o := by
  unfold Relocates
  refine exists_congr fun p => exists_congr fun a => ?_
  rw [inRun_congr hc]
  refine and_congr_right fun hrun => ?_
  rw [hc p hrun.1 hrun.2.1]

theorem Settles.congr (hc : ∀ p < n, 0 < dist n o p → c p = c₀ p)
    (hs : Settles n home c₀ o h) : Settles n home c o h := by
  refine ⟨hs.lt, ?_, ?_⟩
  · intro p a hrun hlt ha
    rw [hc p hrun.1 hrun.2.1] at ha
    exact hs.behind p a ((inRun_congr hc).mp hrun) hlt ha
  · intro q hq hlt
    obtain ⟨p, a, hrun, hqp, ha, hdisp⟩ := hs.least q hq hlt
    refine ⟨p, a, (inRun_congr hc).mpr hrun, hqp, ?_, hdisp⟩
    rw [hc p hrun.1 hrun.2.1]
    exact ha

theorem Strands.congr (hc : ∀ p < n, 0 < dist n o p → c p = c₀ p)
    (hs : Strands n home c₀ o) : Strands n home c o := by
  obtain ⟨h, p, a, hsettles, hrun, hlt, ha, htie⟩ := hs
  refine ⟨h, p, a, hsettles.congr hc, (inRun_congr hc).mpr hrun, hlt, ?_, htie⟩
  rw [hc p hrun.1 hrun.2.1]
  exact ha

/-- The scan from the vacated cell `o` towards the empty cell `e`. -/
structure Scan (n : Nat) (home : α → Nat) (c₀ : Nat → Option α) (o e : Nat)
    (t : Shift α) : Prop where
  hole_lt : t.hole < n
  cur_lt : t.cur < n
  order : dist n o t.hole < dist n o t.cur
  bound : dist n o t.cur ≤ dist n o e
  empty : t.cells t.hole = none
  still : t.hole = o → t.cells = c₀
  ahead : ∀ p < n, dist n o t.hole < dist n o p → t.cells p = c₀ p
  occupied : ∀ p < n, 0 < dist n o p → dist n o p < dist n o t.cur → c₀ p ≠ none
  settled : ∀ p < n, dist n o t.hole < dist n o p → dist n o p < dist n o t.cur →
    ∀ a, c₀ p = some a → dist n (home a) p ≤ dist n t.hole p
  least : ∀ q < n, dist n o q < dist n o t.hole →
    ∃ p a, p < n ∧ dist n o q < dist n o p ∧ dist n o p ≤ dist n o t.hole ∧
      c₀ p = some a ∧ dist n q p < dist n (home a) p

/-- On a chained table no probe path is interrupted but behind the hole. -/
structure ShiftInv (n : Nat) (home : α → Nat) (c₀ : Nat → Option α) (o e : Nat)
    (t : Shift α) : Prop extends Scan n home c₀ o e t where
  paths : ∀ p < n, ∀ q < n, Crosses n home t.cells q p → t.cells q = none →
    q = t.hole ∧ dist n o t.hole < dist n o p

theorem Scan.start (ho : o < n) (he : e < n) (heo : e ≠ o) (hvac : c₀ o = none) :
    Scan n home c₀ o e ⟨c₀, o, (o + 1) % n⟩ := by
  have hpos : 0 < dist n o e := dist_pos ho he heo.symm
  have hlt : dist n o e < n := dist_lt ho
  have hone : dist n o ((o + 1) % n) = 1 := by
    have h := dist_succ ho ho (by rw [dist_self ho]; omega)
    rwa [dist_self ho] at h
  have hself : dist n o o = 0 := dist_self ho
  refine ⟨ho, Nat.mod_lt _ (by omega), ?_, ?_, hvac, fun _ => rfl, fun _ _ _ => rfl,
    ?_, ?_, ?_⟩ <;> dsimp only
  · omega
  · omega
  · intro p hp hp₀ hp₁
    omega
  · intro p hp hp₀ hp₁
    omega
  · intro q hq hlt
    omega

/-- Only the vacated cell may interrupt a probe path. -/
theorem ShiftInv.start (ho : o < n) (he : e < n) (heo : e ≠ o) (hvac : c₀ o = none)
    (hch : ∀ p < n, ∀ q < n, Crosses n home c₀ q p → c₀ q = none → q = o) :
    ShiftInv n home c₀ o e ⟨c₀, o, (o + 1) % n⟩ := by
  refine ⟨Scan.start ho he heo hvac, ?_⟩
  intro p hp q hq hcr hnone
  have hqo := hch p hp q hq hcr hnone
  refine ⟨hqo, ?_⟩
  rw [dist_self ho]
  apply dist_pos ho hp
  rintro rfl
  obtain ⟨a, ha, -⟩ := hcr
  have hsome : c₀ o = some a := ha
  rw [hvac] at hsome
  cases hsome

section Next

variable {t : Shift α} {a : α}

theorem Scan.cells_cur (hi : Scan n home c₀ o e t) : t.cells t.cur = c₀ t.cur :=
  hi.ahead t.cur hi.cur_lt hi.order

theorem Scan.succ_bound (hi : Scan n home c₀ o e t) (ho : o < n) (he : e < n)
    (hemp : c₀ e = none) (ha : t.cells t.cur = some a) :
    dist n o ((t.cur + 1) % n) = dist n o t.cur + 1 ∧
      dist n o t.cur + 1 ≤ dist n o e := by
  have hne : t.cur ≠ e := by
    rintro rfl
    rw [hi.cells_cur, hemp] at ha
    cases ha
  have hdist : dist n o t.cur ≠ dist n o e := fun h => hne (dist_inj ho hi.cur_lt he h)
  have hlt : dist n o e < n := dist_lt ho
  have hbound := hi.bound
  exact ⟨dist_succ ho hi.cur_lt (by omega), by omega⟩

theorem Scan.cur_or_before (hi : Scan n home c₀ o e t) (ho : o < n) {p : Nat} (hp : p < n)
    (hlt : dist n o p < dist n o t.cur + 1) : p = t.cur ∨ dist n o p < dist n o t.cur := by
  by_cases heq : dist n o p = dist n o t.cur
  · exact .inl (dist_inj ho hp hi.cur_lt heq)
  · exact .inr (by omega)

theorem Scan.pass (hi : Scan n home c₀ o e t) (ho : o < n) (he : e < n)
    (hemp : c₀ e = none) (ha : t.cells t.cur = some a)
    (hle : dist n (home a) t.cur ≤ dist n t.hole t.cur) :
    Scan n home c₀ o e (t.pass n) := by
  obtain ⟨hsucc, hbound⟩ := hi.succ_bound ho he hemp ha
  have horder := hi.order
  refine ⟨hi.hole_lt, Nat.mod_lt _ (by omega), ?_, ?_, hi.empty, hi.still, hi.ahead, ?_,
    ?_, hi.least⟩ <;> simp only [Shift.pass, hsucc]
  · omega
  · omega
  · intro p hp hp₀ hp₁
    rcases hi.cur_or_before ho hp hp₁ with rfl | hlt
    · rw [← hi.cells_cur, ha]
      simp
    · exact hi.occupied p hp hp₀ hlt
  · intro p hp hp₀ hp₁ b hb
    rcases hi.cur_or_before ho hp hp₁ with rfl | hlt
    · rw [← hi.cells_cur, ha] at hb
      obtain rfl := Option.some.inj hb
      exact hle
    · exact hi.settled p hp hp₀ hlt b hb

/-- After a move only the entries beyond the new hole can have it on their
path: the path of any other would run across the empty cell `e`. -/
theorem ShiftInv.move_paths (hi : ShiftInv n home c₀ o e t) (ho : o < n) (he : e < n)
    (hhome : ∀ b, home b < n) (hemp : c₀ e = none) (ha : t.cells t.cur = some a)
    (hlt : dist n t.hole t.cur < dist n (home a) t.cur) :
    ∀ p < n, ∀ q < n, Crosses n home (t.move n a).cells q p →
      (t.move n a).cells q = none → q = t.cur ∧ dist n o t.cur < dist n o p := by
  rintro p hp q hq ⟨b, hb, hbq⟩ hnone
  have hcur := hi.cur_lt
  have hne := cur_ne_hole hi.empty ha
  have horder := hi.order
  have hpc : p ≠ t.cur := by
    rintro rfl
    simp [Shift.move] at hb
  by_cases hqc : q = t.cur
  · refine ⟨hqc, ?_⟩
    subst hqc
    by_contra hnot
    have hneq : dist n o p ≠ dist n o t.cur := fun h => hpc (dist_inj ho hp hcur h)
    by_cases hph : p = t.hole
    · -- the moved entry reached its old cell only after passing the hole
      subst hph
      simp only [Shift.move, Function.update_of_ne hne.symm, Function.update_self] at hb
      obtain rfl := Option.some.inj hb
      have hbound : dist n (home a) t.hole < n := dist_lt (hhome a)
      rw [dist_from (hhome a) hp hcur] at hlt
      split_ifs at hlt <;> omega
    · simp only [Shift.move, Function.update_of_ne hpc, Function.update_of_ne hph] at hb
      have hee : t.cells e = none := by
        rw [hi.ahead e he (by have := hi.bound; omega), hemp]
      have hcross : dist n (home b) e < dist n (home b) p := by
        have hbound := hi.bound
        have hen : dist n o e < n := dist_lt ho
        have hsplit := dist_split (hhome b) hcur hp (by omega)
        have hbe : dist n (home b) e ≤ dist n (home b) t.cur + dist n t.cur e := by
          rw [dist_from ho (hhome b) he, dist_from ho (hhome b) hcur, dist_from ho hcur he]
          split_ifs <;> omega
        have hcp : dist n t.cur e < dist n t.cur p := by
          rw [dist_from ho hcur he, dist_from ho hcur hp]
          split_ifs <;> omega
        omega
      have hehole := (hi.paths p hp e he ⟨b, hb, hcross⟩ hee).1
      have hbound := hi.bound
      rw [hehole] at hbound
      omega
  · exfalso
    have hqh : q ≠ t.hole := by
      rintro rfl
      simp only [Shift.move, Function.update_of_ne hqc, Function.update_self] at hnone
      cases hnone
    simp only [Shift.move, Function.update_of_ne hqc, Function.update_of_ne hqh] at hnone
    by_cases hph : p = t.hole
    · subst hph
      simp only [Shift.move, Function.update_of_ne hne.symm, Function.update_self] at hb
      obtain rfl := Option.some.inj hb
      have hcross : dist n (home a) q < dist n (home a) t.cur := by
        have hshort := dist_between (hhome a) hp hcur hne.symm hlt
        omega
      exact hqh (hi.paths t.cur hcur q hq ⟨a, ha, hcross⟩ hnone).1
    · simp only [Shift.move, Function.update_of_ne hpc, Function.update_of_ne hph] at hb
      exact hqh (hi.paths p hp q hq ⟨b, hb, hbq⟩ hnone).1

theorem Scan.move (hi : Scan n home c₀ o e t) (ho : o < n) (he : e < n)
    (hemp : c₀ e = none) (ha : t.cells t.cur = some a)
    (hlt : dist n t.hole t.cur < dist n (home a) t.cur) :
    Scan n home c₀ o e (t.move n a) := by
  obtain ⟨hsucc, hbound⟩ := hi.succ_bound ho he hemp ha
  have hcur := hi.cur_lt
  have horder := hi.order
  refine ⟨hcur, Nat.mod_lt _ (by omega), ?_, ?_, ?_, ?_, ?_, ?_, ?_, ?_⟩ <;>
    simp only [Shift.move, hsucc]
  · omega
  · omega
  · rw [Function.update_self]
  · intro hco
    rw [hco, dist_self ho] at horder
    omega
  · intro p hp hp₀
    have hpc : p ≠ t.cur := by rintro rfl; omega
    have hph : p ≠ t.hole := by rintro rfl; omega
    rw [Function.update_of_ne hpc, Function.update_of_ne hph]
    exact hi.ahead p hp (by omega)
  · intro p hp hp₀ hp₁
    rcases hi.cur_or_before ho hp hp₁ with rfl | hlt'
    · rw [← hi.cells_cur, ha]
      simp
    · exact hi.occupied p hp hp₀ hlt'
  · intro p hp hp₀ hp₁
    omega
  · intro q hq hq₀
    by_cases hqh : dist n o q < dist n o t.hole
    · obtain ⟨p, b, hp, hqp, hph, hb, hdisp⟩ := hi.least q hq hqh
      exact ⟨p, b, hp, hqp, by omega, hb, hdisp⟩
    · -- between the old hole and the new one: the moved entry is displaced across
      refine ⟨t.cur, a, hcur, hq₀, le_rfl, by rw [← hi.cells_cur, ha], ?_⟩
      have hshort : dist n q t.cur ≤ dist n t.hole t.cur := by
        rw [dist_from ho hq hcur, dist_from ho hi.hole_lt hcur]
        split_ifs <;> omega
      omega

end Next

theorem Scan.inRun_iff {t : Shift α} (hi : Scan n home c₀ o e t)
    (hend : t.cells t.cur = none) {p : Nat} :
    InRun n c₀ o p ↔ p < n ∧ 0 < dist n o p ∧ dist n o p < dist n o t.cur := by
  have horder := hi.order
  constructor
  · rintro ⟨hp, hpos, hocc⟩
    refine ⟨hp, hpos, ?_⟩
    by_contra hge
    exact hocc t.cur hi.cur_lt (by omega) (by omega) (hi.cells_cur ▸ hend)
  · rintro ⟨hp, hpos, hlt⟩
    exact ⟨hp, hpos, fun q hq hq₀ hqp => hi.occupied q hq hq₀ (by omega)⟩

theorem Scan.settles {t : Shift α} (hi : Scan n home c₀ o e t)
    (hend : t.cells t.cur = none) : Settles n home c₀ o t.hole := by
  have horder := hi.order
  refine ⟨hi.hole_lt, ?_, ?_⟩
  · intro p a hp hlt ha
    exact hi.settled p hp.1 hlt ((hi.inRun_iff hend).mp hp).2.2 a ha
  · intro q hq hlt
    obtain ⟨p, a, hp, hqp, hph, ha, hdisp⟩ := hi.least q hq hlt
    exact ⟨p, a, (hi.inRun_iff hend).mpr ⟨hp, by omega, by omega⟩, hqp, ha, hdisp⟩

/-- What the shift leaves on a chained table: a hole where `Settles` says, the
cells beyond it untouched, and no interrupted path but those of entries at home
in the hole. -/
structure Shifted (n : Nat) (home : α → Nat) (c₀ : Nat → Option α) (o h : Nat)
    (c' : Nat → Option α) : Prop where
  settles : Settles n home c₀ o h
  empty : c' h = none
  ahead : ∀ p < n, dist n o h < dist n o p → c' p = c₀ p
  paths : ∀ p < n, ∀ q < n, Crosses n home c' q p → c' q = none →
    q = h ∧ InRun n c₀ o p ∧ dist n o h < dist n o p ∧ ∀ a, c' p = some a → home a = h

theorem ShiftInv.shifted (ho : o < n) (hhome : ∀ b, home b < n)
    {t : Shift α} (hi : ShiftInv n home c₀ o e t) (hend : t.cells t.cur = none) :
    Shifted n home c₀ o t.hole t.cells := by
  have horder := hi.order
  refine ⟨hi.settles hend, hi.empty, hi.ahead, ?_⟩
  intro p hp q hq hcr hnone
  obtain ⟨rfl, hlt⟩ := hi.paths p hp q hq hcr hnone
  obtain ⟨a, ha, hcross⟩ := hcr
  -- past the end of the run, the path would cross the empty cell there
  have hpcur : dist n o p < dist n o t.cur := by
    by_contra hge
    have hpne : dist n o p ≠ dist n o t.cur := by
      intro heq
      rw [dist_inj ho hp hi.cur_lt heq, hend] at ha
      cases ha
    have hpn : dist n o p < n := dist_lt ho
    have hacross : dist n (home a) t.cur < dist n (home a) p := by
      have hsplit := dist_split (hhome a) hq hp (by omega)
      have hac : dist n (home a) t.cur ≤
          dist n (home a) t.hole + dist n t.hole t.cur := by
        rw [dist_from ho (hhome a) hi.cur_lt, dist_from ho (hhome a) hq,
          dist_from ho hq hi.cur_lt]
        split_ifs <;> omega
      have hshort : dist n t.hole t.cur < dist n t.hole p := by
        rw [dist_from ho hq hi.cur_lt, dist_from ho hq hp]
        split_ifs <;> omega
      omega
    have := (hi.paths p hp t.cur hi.cur_lt ⟨a, ha, hacross⟩ hend).1
    rw [this] at horder
    exact lt_irrefl _ horder
  refine ⟨rfl, (hi.inRun_iff hend).mpr ⟨hp, by omega, hpcur⟩, hlt, ?_⟩
  intro b hb
  rw [ha] at hb
  obtain rfl := Option.some.inj hb
  have hle := hi.settled p hp hlt hpcur a (by rw [← hi.ahead p hp hlt, ha])
  have hsplit := dist_split (hhome a) hq hp (by omega)
  exact (dist_eq_zero (hhome a) hq).mp (by omega)

/-- On any table with an empty cell to spare, chained or not: either nothing
moves, or a cell that was occupied ends up as the hole. -/
theorem shift_still_or_moved (ho : o < n) (he : e < n) (heo : e ≠ o) (hvac : c₀ o = none)
    (hemp : c₀ e = none) {fuel : Nat}
    (hrun : Loop.run (shiftBody n home) fuel ⟨c₀, o, (o + 1) % n⟩ = some c') :
    ¬ Relocates n home c₀ o ∧ c' = c₀ ∨
      Relocates n home c₀ o ∧ ∃ h < n, c₀ h ≠ none ∧ c' h = none := by
  apply Loop.run_invariant (Scan n home c₀ o e)
    (fun c' => ¬ Relocates n home c₀ o ∧ c' = c₀ ∨
      Relocates n home c₀ o ∧ ∃ h < n, c₀ h ≠ none ∧ c' h = none)
    ?_ ?_ (Scan.start ho he heo hvac) hrun
  · intro t t' hi hstep
    obtain ⟨a, ha, ⟨hlt, rfl⟩ | ⟨hle, rfl⟩⟩ := shiftBody_next hstep
    · exact hi.move ho he hemp ha hlt
    · exact hi.pass ho he hemp ha hle
  · intro t q hi hleave
    obtain ⟨hend, rfl⟩ := shiftBody_leave hleave
    have hsettles := hi.settles hend
    by_cases hhole : t.hole = o
    · rw [hhole, settles_self_iff ho] at hsettles
      exact .inl ⟨hsettles, hi.still hhole⟩
    · right
      constructor
      · by_contra hno
        exact hhole (hsettles.unique ho ((settles_self_iff ho).mpr hno))
      · exact ⟨t.hole, hi.hole_lt, hi.occupied t.hole hi.hole_lt
          (dist_pos ho hi.hole_lt (Ne.symm hhole)) hi.order, hi.empty⟩

/-- On a chained table the shift from a cell that was empty anyway moves
nothing, whether or not another cell is empty. -/
theorem shift_still (ho : o < n) (hhome : ∀ b, home b < n) (hch : Chained n home c₀)
    (hvac : c₀ o = none) {fuel : Nat}
    (hrun : Loop.run (shiftBody n home) fuel ⟨c₀, o, (o + 1) % n⟩ = some c') : c' = c₀ := by
  have hmod : ∀ i, i % n < n := fun i => Nat.mod_lt i (by omega)
  apply Loop.run_invariant (fun t => t.cells = c₀ ∧ t.hole = o ∧ t.cur < n)
    (fun c' => c' = c₀) ?_ ?_ ⟨rfl, rfl, hmod (o + 1)⟩ hrun
  · rintro ⟨_, _, p⟩ t' ⟨rfl, rfl, hp⟩ hstep
    obtain ⟨a, ha, ⟨hlt, -⟩ | ⟨-, rfl⟩⟩ := shiftBody_next hstep
    · have hne := (cur_ne_hole hvac ha).symm
      have hcross := dist_between (hhome a) ho hp hne hlt
      exact (hch p hp _ ho ⟨a, ha, hcross⟩ hvac).elim
    · exact ⟨rfl, rfl, hmod (p + 1)⟩
  · intro t q ht hleave
    rw [(shiftBody_leave hleave).2, ht.1]

theorem shift_shifted (ho : o < n) (hhome : ∀ b, home b < n) (he : e < n) (heo : e ≠ o)
    (hvac : c₀ o = none) (hemp : c₀ e = none)
    (hch : ∀ p < n, ∀ q < n, Crosses n home c₀ q p → c₀ q = none → q = o) {fuel : Nat}
    (hrun : Loop.run (shiftBody n home) fuel ⟨c₀, o, (o + 1) % n⟩ = some c') :
    ∃ h, Shifted n home c₀ o h c' := by
  apply Loop.run_invariant (ShiftInv n home c₀ o e) (fun c' => ∃ h, Shifted n home c₀ o h c')
    ?_ ?_ (ShiftInv.start ho he heo hvac hch) hrun
  · intro t t' hi hstep
    obtain ⟨a, ha, ⟨hlt, rfl⟩ | ⟨hle, rfl⟩⟩ := shiftBody_next hstep
    · exact ⟨hi.toScan.move ho he hemp ha hlt, hi.move_paths ho he hhome hemp ha hlt⟩
    · exact ⟨hi.toScan.pass ho he hemp ha hle, hi.paths⟩
  · intro t q hi hleave
    obtain ⟨hend, rfl⟩ := shiftBody_leave hleave
    exact ⟨t.hole, hi.shifted ho hhome hend⟩

/-- A stranded entry sits behind its own empty home. -/
theorem Shifted.stranded (ho : o < n) (hs : Shifted n home c₀ o h c')
    (hst : Strands n home c₀ o) :
    ∃ p a, p < n ∧ 0 < dist n o p ∧ c₀ p = some a ∧ c' p = some a ∧ p ≠ home a ∧
      c' (home a) = none := by
  obtain ⟨h', p, a, hsettles, hrun, hlt, ha, htie⟩ := hst
  obtain rfl := hsettles.unique ho hs.settles
  refine ⟨p, a, hrun.1, hrun.2.1, ha, ?_, ?_, ?_⟩
  · rw [hs.ahead p hrun.1 hlt, ha]
  · intro heq
    rw [← htie, ← heq] at hlt
    exact lt_irrefl _ hlt
  · rw [htie]
    exact hs.empty

theorem Shifted.chained (hs : Shifted n home c₀ o h c')
    (hno : ¬ Strands n home c₀ o) : Chained n home c' := by
  intro p hp q hq hcr hnone
  obtain ⟨rfl, hrun, hlt, htie⟩ := hs.paths p hp q hq hcr hnone
  obtain ⟨a, ha, -⟩ := hcr
  exact hno ⟨q, p, a, hs.settles, hrun, hlt, by rw [← hs.ahead p hp hlt, ha], htie a ha⟩

end Settle

end UltraHft.Lib.OpenAddressing
