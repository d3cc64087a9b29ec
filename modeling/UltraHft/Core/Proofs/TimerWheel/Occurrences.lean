import UltraHft.Core.Proofs.TimerWheel.History
import UltraHft.Core.Proofs.TimerWheel.Lone

/-!
# How often a recurring timer fires

By the time `t` a timer with interval `i` should have fired `t / i` times,
whichever ticks led there.  Where each occurrence fires at the visit at its own
time, it has.  A tick that reaches an occurrence a rotation or more ahead of the
wheel makes it fire at an earlier visit to its bucket, and what follows is counted
from there.
-/

namespace UltraHft.Core

open UltraHft.Lib

namespace TimerWheel

variable {C : Type*} {w : TimerWheel C} {now i m q c n t : Nat} {r : Ticking C}

/-! ## On schedule -/

theorem add_le_of_dvd {d : Nat} (hc : d ∣ c) (hm : d ∣ m) (hlt : c < m) : c + d ≤ m := by
  have hmod : c ≡ m [MOD d] :=
    (Nat.modEq_zero_iff_dvd.mpr hc).trans (Nat.modEq_zero_iff_dvd.mpr hm).symm
  exact hmod.add_le_of_lt hlt

theorem lt_next_multiple (hi : 0 < i) (now : Nat) : now < (now / i + 1) * i := by
  rw [Nat.mul_comm]
  exact Nat.lt_mul_div_succ now hi

/-- No time that a tick to `now` computes is too large if the next multiple of the
interval is not. -/
theorem noOverflow_of_fits (hc : tickIntervalNs ∣ w.current_tick_) (hi : 0 < i)
    (hms : tickIntervalNs ∣ i) (hfit : (now / i + 1) * i < 2 ^ 64) : NoOverflow w now := by
  intro k hk
  have hvisit : tickIntervalNs ∣ w.current_tick_ + k * tickIntervalNs :=
    Nat.dvd_add hc (Nat.dvd_mul_left _ k)
  calc w.current_tick_ + (k + 1) * tickIntervalNs
      = w.current_tick_ + k * tickIntervalNs + tickIntervalNs := by
        rw [Nat.succ_mul, Nat.add_assoc]
    _ ≤ (now / i + 1) * i :=
        add_le_of_dvd hvisit (Nat.dvd_mul_left_of_dvd hms _)
          (Nat.lt_of_le_of_lt hk (lt_next_multiple hi now))
    _ < 2 ^ 64 := hfit

/-- After `q` occurrences, each at its own time, the wheel is at `c` and the timer
is to fire at `m`. -/
structure OnSchedule (i c m q : Nat) : Prop where
  whole : tickIntervalNs ∣ c
  time : m = (q + 1) * i
  ahead : c ≤ m
  behind : q * i < c ∨ q = 0

theorem onSchedule_new (i : Nat) : OnSchedule i 0 i 0 where
  whole := Nat.dvd_zero _
  time := by omega
  ahead := Nat.zero_le i
  behind := .inr rfl

theorem OnSchedule.dvd_time (h : OnSchedule i c m q) (hms : tickIntervalNs ∣ i) :
    tickIntervalNs ∣ m := by
  rw [h.time]
  exact Nat.dvd_mul_left_of_dvd hms _

theorem OnSchedule.wait (h : OnSchedule i c m q) (hms : tickIntervalNs ∣ i) (hne : c ≠ m) :
    OnSchedule i (c + tickIntervalNs) m q where
  whole := Nat.dvd_add h.whole (Nat.dvd_refl _)
  time := h.time
  ahead := add_le_of_dvd h.whole (h.dvd_time hms) (Nat.lt_of_le_of_ne h.ahead hne)
  behind := by
    have hbehind := h.behind
    omega

theorem OnSchedule.fire (h : OnSchedule i c m q) (hi : 0 < i) (hms : tickIntervalNs ∣ i)
    (heq : c = m) : OnSchedule i (c + tickIntervalNs) (c + i) (q + 1) where
  whole := Nat.dvd_add h.whole (Nat.dvd_refl _)
  time := by rw [heq, h.time, ← Nat.succ_mul]
  ahead := Nat.add_le_add_left (Nat.le_of_dvd hi hms) c
  behind := by
    have hpos : 0 < tickIntervalNs := by decide
    rw [heq, h.time]
    omega

/-- A tick to `now` reaches an occurrence that is a rotation or more ahead. -/
def Leaps (w : TimerWheel C) (now i : Nat) : Prop :=
  w.rotation ≤ i ∧ ∃ j, w.current_tick_ + w.rotation ≤ j * i ∧ j * i ≤ now

/-- Without a leap, a visit that makes the timer fire is the one at its time. -/
theorem OnSchedule.eq_of_dueAt (h : OnSchedule i c m q) (hms : tickIntervalNs ∣ i)
    (hno : ¬ Leaps w now i) (hle : w.current_tick_ ≤ c) (hdue : DueAt w now c m) : c = m := by
  by_contra hne
  have hmod := (bucketOf_eq_iff h.whole (h.dvd_time hms)).mp hdue.1
  have hahead := h.ahead
  have hrot : c + w.rotation ≤ m := hmod.add_le_of_lt (by omega)
  have htime := h.time
  rw [Nat.succ_mul] at htime
  have hlong : w.rotation ≤ i := by
    rcases h.behind with hbehind | hzero
    · omega
    · rw [hzero, Nat.zero_mul] at htime
      omega
  apply hno
  refine ⟨hlong, q + 1, ?_, ?_⟩
  · rw [← h.time]
    omega
  · rw [← h.time]
    exact hdue.2

theorem OnSchedule.next_fits (h : OnSchedule i c m q) (heq : c = m) (hi : 0 < i) (hle : c ≤ now)
    (hfit : (now / i + 1) * i < 2 ^ 64) : wrap (c + i) = c + i := by
  have htime := h.time
  have hq : q + 1 ≤ now / i := by
    rw [Nat.le_div_iff_mul_le hi, ← htime, ← heq]
    exact hle
  have hnext : c + i ≤ (now / i + 1) * i := by
    rw [heq, htime, Nat.succ_mul (now / i)]
    exact Nat.add_le_add_right (Nat.mul_le_mul_right i hq) i
  exact Nat.mod_eq_of_lt (Nat.lt_of_le_of_lt hnext hfit)

theorem kept_onSchedule (hi : 0 < i) (hms : tickIntervalNs ∣ i)
    (hfit : (now / i + 1) * i < 2 ^ 64) (hno : ¬ Leaps w now i) :
    Kept w now i fun c m q => (w.current_tick_ ≤ c ∧ q * i ≤ now) ∧ OnSchedule i c m q where
  quiet := by
    intro c m q ⟨⟨hfrom, hq⟩, h⟩ hle hquiet
    have hne : c ≠ m := by
      intro heq
      rw [heq] at hquiet hle
      exact hquiet ⟨rfl, hle⟩
    exact ⟨⟨by omega, hq⟩, h.wait hms hne⟩
  fire := by
    intro c m q ⟨⟨hfrom, _⟩, h⟩ hle hdue
    have heq := h.eq_of_dueAt hms hno hfrom hdue
    rw [h.next_fits heq hi hle hfit]
    refine ⟨⟨by omega, ?_⟩, h.fire hi hms heq⟩
    rw [← h.time]
    exact hdue.2

theorem OnSchedule.not_rearms (h : OnSchedule i c m q) (hi : 0 < i) (hms : tickIntervalNs ∣ i)
    (hfit : (now / i + 1) * i < 2 ^ 64) (hno : ¬ Leaps w now i) (hfrom : w.current_tick_ ≤ c)
    (hle : c ≤ now) (hdue : DueAt w now c m) : ¬ DueAt w now c (wrap (c + i)) := by
  have heq := h.eq_of_dueAt hms hno hfrom hdue
  have hnext := h.fire hi hms heq
  rw [h.next_fits heq hi hle hfit]
  intro ⟨hbucket, hagain⟩
  have hmod := (bucketOf_eq_iff h.whole (Nat.dvd_add h.whole hms)).mp hbucket
  have hrot : c + w.rotation ≤ c + i := hmod.add_le_of_lt (by omega)
  apply hno
  refine ⟨by omega, q + 1 + 1, ?_, ?_⟩
  · rw [← hnext.time]
    omega
  · rw [← hnext.time]
    exact hagain

theorem OnSchedule.count (h : OnSchedule i c m q) (hq : q * i ≤ now) (hpast : now < c) :
    q = now / i := by
  have hahead := h.ahead
  rw [h.time] at hahead
  exact (Nat.div_eq_of_lt_le hq (by omega)).symm

/-! ## Before the second occurrence

With a long interval a late tick makes the first occurrence fire early, but not before
`i % rotation`; so the second one is for `i + i % rotation` or later.
-/

structure AtMostOne (w : TimerWheel C) (i now c m q : Nat) : Prop where
  whole : tickIntervalNs ∣ c
  fired : (q = 0 ∧ m = i ∧ c ≤ i) ∨ (q = 1 ∧ i + i % w.rotation ≤ m ∧ i ≤ now)

theorem atMostOne_new (w : TimerWheel C) (i now : Nat) : AtMostOne w i now 0 i 0 where
  whole := Nat.dvd_zero _
  fired := .inl ⟨rfl, rfl, Nat.zero_le i⟩

theorem AtMostOne.mono (h : AtMostOne w i t c m q) (hle : t ≤ now) : AtMostOne w i now c m q where
  whole := h.whole
  fired := by
    rcases h.fired with hnone | ⟨hq, hm, hi⟩
    · exact .inl hnone
    · exact .inr ⟨hq, hm, Nat.le_trans hi hle⟩

theorem AtMostOne.due (h : AtMostOne w i now c m q) (hi : 0 < i) (hms : tickIntervalNs ∣ i)
    (hfit : (now / i + 1) * i < 2 ^ 64) (hshort : now < i + i % w.rotation)
    (hdue : DueAt w now c m) :
    q = 0 ∧ i ≤ now ∧ i % w.rotation ≤ c ∧ wrap (c + i) = c + i := by
  rcases h.fired with ⟨hq, hm, hle⟩ | ⟨_, hm, _⟩
  · obtain ⟨hbucket, hnow⟩ := hdue
    rw [hm] at hbucket hnow
    have hmod := (bucketOf_eq_iff h.whole hms).mp hbucket
    have hge : i % w.rotation ≤ c :=
      calc i % w.rotation = c % w.rotation := hmod.symm
        _ ≤ c := Nat.mod_le ..
    have hone : 1 ≤ now / i := Nat.div_pos hnow hi
    have htwice : i + i ≤ (now / i + 1) * i := by
      rw [← Nat.two_mul]
      exact Nat.mul_le_mul_right i (by omega)
    exact ⟨hq, hnow, hge, Nat.mod_eq_of_lt (by omega)⟩
  · have hnow := hdue.2
    omega

theorem kept_atMostOne (hi : 0 < i) (hms : tickIntervalNs ∣ i)
    (hfit : (now / i + 1) * i < 2 ^ 64) (hshort : now < i + i % w.rotation) :
    Kept w now i (AtMostOne w i now) where
  quiet := by
    intro c m q h hle hquiet
    constructor
    case whole => exact Nat.dvd_add h.whole (Nat.dvd_refl _)
    case fired =>
      rcases h.fired with ⟨hq, hm, hci⟩ | hone
      · left
        have hne : c ≠ i := by
          intro heq
          rw [hm, ← heq] at hquiet
          exact hquiet ⟨rfl, hle⟩
        exact ⟨hq, hm, add_le_of_dvd h.whole hms (by omega)⟩
      · exact .inr hone
  fire := by
    intro c m q h _ hdue
    obtain ⟨hq, hnow, hgap, hwrap⟩ := h.due hi hms hfit hshort hdue
    rw [hwrap]
    exact ⟨Nat.dvd_add h.whole (Nat.dvd_refl _), .inr (by omega)⟩

theorem AtMostOne.not_rearms (h : AtMostOne w i now c m q) (hi : 0 < i)
    (hms : tickIntervalNs ∣ i) (hfit : (now / i + 1) * i < 2 ^ 64)
    (hshort : now < i + i % w.rotation) (hdue : DueAt w now c m) :
    ¬ DueAt w now c (wrap (c + i)) := by
  obtain ⟨_, _, hgap, hwrap⟩ := h.due hi hms hfit hshort hdue
  rw [hwrap]
  intro ⟨_, hagain⟩
  omega

theorem AtMostOne.count (h : AtMostOne w i now c m q)
    (hshort : now < i + i % w.rotation) (hpast : now < c) : q = now / i := by
  have hgap : i % w.rotation ≤ i := Nat.mod_le ..
  rcases h.fired with ⟨hq, _, hci⟩ | ⟨hq, _, hnow⟩
  · rw [hq, Nat.div_eq_of_lt (by omega)]
  · rw [hq]
    exact (Nat.div_eq_of_lt_le (by omega) (by omega)).symm

/-! ## Where the occurrences come too soon -/

/-- In one tick from the start each occurrence fires a gap `i % rotation` after
the one before, as long as fewer than `t / i + 1` have. -/
structure TooSoon (w : TimerWheel C) (i t c m q : Nat) : Prop where
  whole : tickIntervalNs ∣ c
  time : m = q * (i % w.rotation) + i
  ahead : c ≤ (q + 1) * (i % w.rotation)
  behind : q * (i % w.rotation) < c ∨ q = 0
  few : q ≤ t / i

theorem dvd_gap (hms : tickIntervalNs ∣ i) : tickIntervalNs ∣ i % w.rotation :=
  (Nat.dvd_mod_iff dvd_rotation).mpr hms

theorem TooSoon.time_le (h : TooSoon w i t c m q) (hlong : w.rotation ≤ i)
    (ht : i + i % w.rotation ≤ t) : m ≤ t := by
  have hgap : i % w.rotation < w.rotation := Nat.mod_lt i rotation_pos
  have htwice : 2 * (i % w.rotation) ≤ i := by
    have hsplit := Nat.div_add_mod i w.rotation
    have hone : 1 ≤ i / w.rotation := Nat.div_pos hlong rotation_pos
    have hrot : w.rotation * 1 ≤ w.rotation * (i / w.rotation) := Nat.mul_le_mul_left _ hone
    omega
  have hfew : q * (i % w.rotation) ≤ (t / i) * (i % w.rotation) :=
    Nat.mul_le_mul_right _ h.few
  rw [h.time]
  by_cases hsmall : t / i ≤ 1
  · have hone : (t / i) * (i % w.rotation) ≤ 1 * (i % w.rotation) :=
      Nat.mul_le_mul_right _ hsmall
    omega
  · have hhalf : 2 * ((t / i) * (i % w.rotation)) ≤ (t / i) * i := by
      calc 2 * ((t / i) * (i % w.rotation)) = (t / i) * (2 * (i % w.rotation)) := by
            rw [Nat.mul_left_comm]
        _ ≤ (t / i) * i := Nat.mul_le_mul_left _ htwice
    have htwo : 2 * i ≤ (t / i) * i := Nat.mul_le_mul_right i (by omega)
    have hdiv : (t / i) * i ≤ t := Nat.div_mul_le_self t i
    omega

theorem TooSoon.modEq (h : TooSoon w i t c m q) :
    (q + 1) * (i % w.rotation) ≡ m [MOD w.rotation] := by
  rw [h.time, Nat.succ_mul]
  exact (Nat.mod_modEq i w.rotation).add_left _

theorem TooSoon.dvd_time (h : TooSoon w i t c m q) (hms : tickIntervalNs ∣ i) :
    tickIntervalNs ∣ m := by
  rw [h.time]
  exact Nat.dvd_add (Nat.dvd_mul_left_of_dvd (dvd_gap hms) q) hms

theorem TooSoon.wait (h : TooSoon w i t c m q) (hms : tickIntervalNs ∣ i) (hlong : w.rotation ≤ i)
    (ht : i + i % w.rotation ≤ t) (hquiet : ¬ DueAt w t c m) :
    TooSoon w i t (c + tickIntervalNs) m q := by
  have hne : c ≠ (q + 1) * (i % w.rotation) := by
    intro heq
    have hmod : c ≡ m [MOD w.rotation] := heq ▸ h.modEq
    exact hquiet ⟨(bucketOf_eq_iff h.whole (h.dvd_time hms)).mpr hmod, h.time_le hlong ht⟩
  have hbehind := h.behind
  exact ⟨Nat.dvd_add h.whole (Nat.dvd_refl _), h.time,
    add_le_of_dvd h.whole (Nat.dvd_mul_left_of_dvd (dvd_gap hms) _)
      (Nat.lt_of_le_of_ne h.ahead hne),
    by omega, h.few⟩

theorem TooSoon.eq_of_dueAt (h : TooSoon w i t c m q) (hms : tickIntervalNs ∣ i)
    (hdue : DueAt w t c m) : c = (q + 1) * (i % w.rotation) := by
  by_contra hne
  have hahead := h.ahead
  have hsame := (bucketOf_eq_iff h.whole (h.dvd_time hms)).mp hdue.1
  have hrot : c + w.rotation ≤ (q + 1) * (i % w.rotation) :=
    (hsame.trans h.modEq.symm).add_le_of_lt (by omega)
  have hlt : i % w.rotation < w.rotation := Nat.mod_lt i rotation_pos
  rw [Nat.succ_mul] at hrot
  rcases h.behind with hbehind | hzero
  · omega
  · rw [hzero, Nat.zero_mul] at hrot
    omega

theorem TooSoon.fire (h : TooSoon w i t c m q) (hms : tickIntervalNs ∣ i)
    (hgap : 0 < i % w.rotation) (hdue : DueAt w t c m) (hfew : q + 1 ≤ t / i) :
    TooSoon w i t (c + tickIntervalNs) (c + i) (q + 1) := by
  have heq := h.eq_of_dueAt hms hdue
  have hpos : 0 < tickIntervalNs := by decide
  constructor
  case whole => exact Nat.dvd_add h.whole (Nat.dvd_refl _)
  case time => rw [heq]
  case ahead =>
    rw [heq, Nat.succ_mul (q + 1)]
    exact Nat.add_le_add_left (Nat.le_of_dvd hgap (dvd_gap hms)) _
  case behind =>
    rw [heq]
    omega
  case few => exact hfew

theorem kept_tooSoon (hms : tickIntervalNs ∣ i) (hlong : w.rotation ≤ i)
    (hgap : 0 < i % w.rotation) (ht : i + i % w.rotation ≤ t) (hfit : t < 2 ^ 64) :
    Kept w t i fun c m q => t / i < q ∨ TooSoon w i t c m q where
  quiet := by
    intro c m q h _ hquiet
    rcases h with hmany | hsoon
    · exact .inl hmany
    · exact .inr (hsoon.wait hms hlong ht hquiet)
  fire := by
    intro c m q h _ hdue
    rcases h with hmany | hsoon
    · exact .inl (by omega)
    · by_cases hfew : q + 1 ≤ t / i
      · right
        have hnext := hsoon.fire hms hgap hdue hfew
        have hle := hnext.time_le hlong ht
        have hwrap : wrap (c + i) = c + i := Nat.mod_eq_of_lt (by omega)
        rw [hwrap]
        exact hnext
      · exact .inl (by omega)

/-- One tick from the start past the second early occurrence does not come back, or
makes the timer fire too often. -/
theorem Lone.tick_tooSoon (h : Lone w i i) (hstart : w.current_tick_ = 0)
    (hnow : NoOverflow w t) (hms : tickIntervalNs ∣ i) (hlong : w.rotation ≤ i)
    (ht : i + i % w.rotation ≤ t) (hfit : t < 2 ^ 64) (hr : w.tick n t = some r) :
    t / i < r.fired.length := by
  have hzero : tickIntervalNs ∣ 0 := Nat.dvd_zero _
  rcases Nat.eq_zero_or_pos (i % w.rotation) with hnone | hgap
  · -- the occurrence that the first visit brings about is due in the same bucket
    have hbucket : w.bucketOf 0 = w.bucketOf i :=
      (bucketOf_eq_iff hzero hms).mpr ((Nat.zero_mod _).trans hnone.symm)
    have hwrap : wrap (0 + i) = i := by
      rw [Nat.zero_add]
      exact Nat.mod_eq_of_lt (by omega)
    have hdue : DueAt w t w.current_tick_ i := by
      rw [hstart]
      exact ⟨hbucket, by omega⟩
    have hfires := (h.dueHere hdue).firesAt (by omega)
    rw [hstart] at hfires
    have hrearms : RearmsDuring w t := ⟨0, i, hfires, by rw [hwrap]; omega, by rw [hwrap, hbucket]⟩
    rw [tick_hangs hnow hrearms] at hr
    cases hr
  · have hsoon : TooSoon w i t w.current_tick_ i 0 := by
      rw [hstart]
      exact ⟨hzero, by omega, Nat.zero_le _, .inr rfl, Nat.zero_le _⟩
    obtain ⟨m', htracked, hpast⟩ :=
      h.tick_kept hnow (kept_tooSoon hms hlong hgap ht hfit) (.inr hsoon) hr
    rcases htracked.holds with hmany | hleft
    · exact hmany
    · -- what is left of the schedule lies before the end of the tick
      have hle := hleft.time_le hlong ht
      have hahead := hleft.ahead
      have hmod : i % w.rotation ≤ i := Nat.mod_le ..
      rw [hleft.time] at hle
      rw [Nat.succ_mul] at hahead
      omega

end TimerWheel

namespace Watched

open TimerWheel (AtMostOne DueAt Kept Leaps Lone NoOverflow OnSchedule tickIntervalNs)

variable {C : Type*} {s s' : Watched C} {now i m size t : Nat} {P : Nat → Nat → Nat → Prop}

theorem perform_lone (h : Lone s.wheel i m) (hfit : NoOverflow s.wheel now)
    (hkept : Kept s.wheel now i P) (hP : P s.wheel.current_tick_ m s.fired.length)
    (hno : ∀ c m q, P c m q → c ≤ now → DueAt s.wheel now c m →
      ¬ DueAt s.wheel now c (wrap (c + i))) :
    ∃ answer s' m', s.perform (.tick now) = some (answer, s') ∧
      s'.wheel.wheel_size_ = s.wheel.wheel_size_ ∧ now < s'.wheel.current_tick_ ∧
      Lone s'.wheel i m' ∧ P s'.wheel.current_tick_ m' s'.fired.length := by
  have hshift : Kept s.wheel now i fun c m q => P c m (s.fired.length + q) := by
    constructor
    case quiet =>
      intro c m q hold hle hquiet
      exact hkept.quiet c m _ hold hle hquiet
    case fire =>
      intro c m q hold hle hdue
      exact hkept.fire c m _ hold hle hdue
  obtain ⟨n, r, hr⟩ := h.tick_returns hfit hshift hP fun c m q => hno c m _
  obtain ⟨m', htracked, hpast⟩ := h.tick_kept hfit hshift hP hr
  refine ⟨_, _, m', perform_tick_eq_some.mpr ⟨n, r, hr, rfl⟩, htracked.size, hpast,
    htracked.lone, ?_⟩
  rw [List.length_append, List.length_map]
  exact htracked.holds

theorem exec_ticks {Q : Nat → Watched C → Prop} {ticks : List Nat}
    (hsorted : ticks.Pairwise (· ≤ ·)) (h₀ : Q 0 s)
    (hstep : ∀ pre now t s', pre ++ [now] <+: ticks → s.exec (pre.map .tick) = some s' →
      Q t s' → t ≤ now → ∃ answer s'', s'.perform (.tick now) = some (answer, s'') ∧ Q now s'') :
    ∃ s', s.exec (ticks.map .tick) = some s' ∧ Q (ticks.getLast?.getD 0) s' := by
  rw [exec, Runs.exec_map]
  apply Runs.exec_total (fun pre s => Q (pre.getLast?.getD 0) s) h₀
  intro pre now s' hpre hrun hQ
  have hle : pre.getLast?.getD 0 ≤ now := by
    cases hlast : pre.getLast? with
    | none => exact Nat.zero_le now
    | some t =>
        have hmem := List.mem_of_getLast? hlast
        exact (List.pairwise_append.mp (hsorted.sublist hpre.sublist)).2.2 t hmem now (by simp)
  have hexec : s.exec (pre.map .tick) = some s' := (Runs.exec_map WheelOp.tick pre).trans hrun
  obtain ⟨answer, s'', hperform, hQ'⟩ := hstep pre now _ s' hpre hexec hQ hle
  refine ⟨s'', by rw [hperform]; rfl, ?_⟩
  rw [List.getLast?_concat]
  exact hQ'

/-- After a tick to `t` as many callbacks have run as intervals have passed, and the
wheel is on schedule. -/
structure OnTime (size i t : Nat) (s : Watched C) : Prop where
  size : s.wheel.wheel_size_ = size
  count : s.fired.length = t / i
  lone : Lone s.wheel i ((s.fired.length + 1) * i)
  schedule : OnSchedule i s.wheel.current_tick_ ((s.fired.length + 1) * i) s.fired.length

theorem OnTime.tick (h : OnTime size i t s) (hi : 0 < i) (hms : tickIntervalNs ∣ i) (hle : t ≤ now)
    (hfit : (now / i + 1) * i < 2 ^ 64) (hno : ¬ Leaps s.wheel now i) :
    ∃ answer s', s.perform (.tick now) = some (answer, s') ∧ OnTime size i now s' := by
  have hq : s.fired.length * i ≤ now := by
    rw [h.count]
    exact Nat.le_trans (Nat.div_mul_le_self t i) hle
  obtain ⟨answer, s', m', hperform, hsize, hpast, hlone, ⟨_, hq'⟩, hschedule⟩ :=
    perform_lone h.lone (TimerWheel.noOverflow_of_fits h.schedule.whole hi hms hfit)
      (TimerWheel.kept_onSchedule hi hms hfit hno) ⟨⟨Nat.le_refl _, hq⟩, h.schedule⟩
      fun c m q ⟨⟨hfrom, _⟩, hold⟩ hle hdue => hold.not_rearms hi hms hfit hno hfrom hle hdue
  refine ⟨answer, s', hperform, hsize.trans h.size, hschedule.count hq' hpast, ?_, ?_⟩
  · rw [← hschedule.time]
    exact hlone
  · rw [← hschedule.time]
    exact hschedule

def started (size : Nat) (hsize : 0 < size) (i : Nat) (callback : C) : Watched C :=
  ((new C size hsize).afterSchedule
    ((new C size hsize).wheel.scheduleRecurring i callback) (wrap (0 + i))
    (.recurring 1 i callback)).2

theorem exec_scheduleRecurring (size : Nat) (hsize : 0 < size) (i : Nat) (callback : C)
    (ops : List (WheelOp C)) :
    (new C size hsize).exec (.scheduleRecurring i callback :: ops) =
      (started size hsize i callback).exec ops := rfl

theorem onTime_started (hsize : 0 < size) (hi : i < 2 ^ 64) (callback : C) :
    OnTime size i 0 (started size hsize i callback) where
  size := rfl
  count := (Nat.zero_div i).symm
  lone := by
    have hlone := TimerWheel.lone_scheduleRecurring size hsize hi callback
    have htime : (0 + 1) * i = i := by omega
    change Lone _ i ((0 + 1) * i)
    rw [htime]
    exact hlone
  schedule := by
    have htime : (0 + 1) * i = i := by omega
    change OnSchedule i 0 ((0 + 1) * i) 0
    rw [htime]
    exact TimerWheel.onSchedule_new i

/-! ## The count -/

/-- The ticks to the given times, and then to `t`, of a new wheel that holds one
recurring timer make it fire as often as its interval has passed. -/
def FiresOnTime (size : Nat) (hsize : 0 < size) (i : Nat) (callback : C) (ticks : List Nat)
    (t : Nat) : Prop :=
  ∃ s, (new C size hsize).exec (.scheduleRecurring i callback :: (ticks ++ [t]).map .tick) =
    some s ∧ s.fired.length = t / i

def NeverLeaps (size : Nat) (hsize : 0 < size) (i : Nat) (callback : C) (ticks : List Nat) :
    Prop :=
  ∀ pre now s, pre ++ [now] <+: ticks →
    (new C size hsize).exec (.scheduleRecurring i callback :: pre.map .tick) = some s →
      ¬ Leaps s.wheel now i

theorem interval_lt (hfit : (t / i + 1) * i < 2 ^ 64) : i < 2 ^ 64 := by
  rw [Nat.succ_mul] at hfit
  omega

theorem fits_of_le (hle : now ≤ t) (hfit : (t / i + 1) * i < 2 ^ 64) :
    (now / i + 1) * i < 2 ^ 64 := by
  have hdiv : now / i ≤ t / i := Nat.div_le_div_right hle
  exact Nat.lt_of_le_of_lt (Nat.mul_le_mul_right i (by omega)) hfit

theorem le_last {ticks : List Nat} (hsorted : (ticks ++ [t]).Pairwise (· ≤ ·))
    (hmem : now ∈ ticks ++ [t]) : now ≤ t := by
  rcases List.mem_append.mp hmem with hbefore | hlast
  · exact (List.pairwise_append.mp hsorted).2.2 now hbefore t (List.mem_singleton_self t)
  · exact (List.mem_singleton.mp hlast).le

theorem firesOnTime_of_not_leaps {hsize : 0 < size} {callback : C} {ticks : List Nat}
    (hi : 0 < i) (hms : tickIntervalNs ∣ i) (hsorted : (ticks ++ [t]).Pairwise (· ≤ ·))
    (hfit : (t / i + 1) * i < 2 ^ 64)
    (hno : ∀ pre now s, pre ++ [now] <+: ticks ++ [t] →
      (new C size hsize).exec (.scheduleRecurring i callback :: pre.map .tick) = some s →
        s.wheel.wheel_size_ = size → ¬ Leaps s.wheel now i) :
    FiresOnTime size hsize i callback ticks t := by
  have hsmall := interval_lt hfit
  have hrun := exec_ticks (Q := OnTime size i) hsorted (onTime_started hsize hsmall callback) (by
    intro pre now t' s' hpre hs' hon hle
    rw [← exec_scheduleRecurring] at hs'
    have hlast : now ≤ t := le_last hsorted (hpre.subset (by simp))
    exact hon.tick hi hms hle (fits_of_le hlast hfit) (hno pre now s' hpre hs' hon.size))
  obtain ⟨s', hs', hon⟩ := hrun
  rw [List.getLast?_concat] at hon
  exact ⟨s', hs', hon.count⟩

structure FiredAtMostOnce (size i t : Nat) (s : Watched C) : Prop where
  size : s.wheel.wheel_size_ = size
  count : s.fired.length = t / i
  fired : ∃ m, Lone s.wheel i m ∧ AtMostOne s.wheel i t s.wheel.current_tick_ m s.fired.length

theorem FiredAtMostOnce.tick (h : FiredAtMostOnce size i t s) (hi : 0 < i)
    (hms : tickIntervalNs ∣ i) (hle : t ≤ now) (hfit : (now / i + 1) * i < 2 ^ 64)
    (hshort : now < i + i % (size * tickIntervalNs)) :
    ∃ answer s', s.perform (.tick now) = some (answer, s') ∧ FiredAtMostOnce size i now s' := by
  obtain ⟨m, hlone, hone⟩ := h.fired
  have hrot : now < i + i % s.wheel.rotation := by
    rw [TimerWheel.rotation, h.size]
    exact hshort
  obtain ⟨answer, s', m', hperform, hsize, hpast, hlone', hone'⟩ :=
    perform_lone hlone (TimerWheel.noOverflow_of_fits hone.whole hi hms hfit)
      (TimerWheel.kept_atMostOne hi hms hfit hrot) (hone.mono hle)
      fun c m q hold _ hdue => hold.not_rearms hi hms hfit hrot hdue
  refine ⟨answer, s', hperform, hsize.trans h.size, hone'.count hrot hpast, m', hlone', ?_⟩
  exact ⟨hone'.whole, by rw [TimerWheel.rotation, hsize]; exact hone'.fired⟩

theorem firesOnTime_of_short {hsize : 0 < size} {callback : C} {ticks : List Nat}
    (hi : 0 < i) (hms : tickIntervalNs ∣ i) (hsorted : (ticks ++ [t]).Pairwise (· ≤ ·))
    (hfit : (t / i + 1) * i < 2 ^ 64) (hshort : t < i + i % (size * tickIntervalNs)) :
    FiresOnTime size hsize i callback ticks t := by
  have hsmall := interval_lt hfit
  have hstart : FiredAtMostOnce size i 0 (started size hsize i callback) :=
    ⟨rfl, (Nat.zero_div i).symm, i, TimerWheel.lone_scheduleRecurring size hsize hsmall callback,
      TimerWheel.atMostOne_new _ i 0⟩
  have hrun := exec_ticks (Q := FiredAtMostOnce size i) hsorted hstart (by
    intro pre now t' s' hpre _ hone hle
    have hlast : now ≤ t := le_last hsorted (hpre.subset (by simp))
    exact hone.tick hi hms hle (fits_of_le hlast hfit) (by omega))
  obtain ⟨s', hs', hone⟩ := hrun
  rw [List.getLast?_concat] at hone
  exact ⟨s', hs', hone.count⟩

/-- With a long interval, a single tick that goes far enough breaks the count. -/
theorem not_firesOnTime_of_long {hsize : 0 < size} {callback : C} (hi : 0 < i)
    (hms : tickIntervalNs ∣ i) (hfit : (t / i + 1) * i < 2 ^ 64) (hlong : size * tickIntervalNs ≤ i)
    (ht : i + i % (size * tickIntervalNs) ≤ t) : ¬ FiresOnTime size hsize i callback [] t := by
  intro ⟨s, hs, hcount⟩
  have hsmall := interval_lt hfit
  have hnext := TimerWheel.lt_next_multiple hi t
  rw [exec_scheduleRecurring, List.nil_append, List.map_singleton, exec, Runs.exec,
    Option.bind_eq_some_iff] at hs
  obtain ⟨s', hs', hlast⟩ := hs
  obtain rfl : s' = s := Option.some.inj hlast
  obtain ⟨⟨answer, s''⟩, hperform, rfl⟩ := Option.map_eq_some_iff.mp hs'
  obtain ⟨n, r, hr, hafter⟩ := perform_tick_eq_some.mp hperform
  obtain rfl := congrArg Prod.snd hafter
  have hlone := TimerWheel.lone_scheduleRecurring size hsize hsmall callback
  have htoo := hlone.tick_tooSoon rfl
    (TimerWheel.noOverflow_of_fits (Nat.dvd_zero _) hi hms hfit) hms hlong ht (by omega) hr
  have hlength : ((started size hsize i callback).afterTick r t).2.fired.length =
      r.fired.length := List.length_map _
  rw [hlength] at hcount
  omega

/-- **Whichever ticks lead to `t`, the timer has fired `t / i` times, if and only if the
interval is shorter than a rotation or `t` comes before `i + i % rotation`; and in
every run in which no tick reaches an occurrence a rotation ahead of the wheel.** -/
theorem firesOnTime_iff (size : Nat) (hsize : 0 < size) (i : Nat) (hi : 0 < i)
    (hms : tickIntervalNs ∣ i) (callback : C) (t : Nat) (hfit : (t / i + 1) * i < 2 ^ 64) :
    ((∀ ticks, (ticks ++ [t]).Pairwise (· ≤ ·) → FiresOnTime size hsize i callback ticks t) ↔
      i < size * tickIntervalNs ∨ t < i + i % (size * tickIntervalNs)) ∧
    ∀ ticks, (ticks ++ [t]).Pairwise (· ≤ ·) → NeverLeaps size hsize i callback (ticks ++ [t]) →
      FiresOnTime size hsize i callback ticks t := by
  constructor
  · constructor
    · intro hall
      by_contra hno
      rw [not_or, Nat.not_lt, Nat.not_lt] at hno
      exact not_firesOnTime_of_long hi hms hfit hno.1 hno.2 (hall [] (List.pairwise_singleton _ t))
    · intro hcase ticks hsorted
      rcases hcase with hshort | hearly
      · apply firesOnTime_of_not_leaps hi hms hsorted hfit
        intro pre now s _ _ hkept ⟨hlong, _⟩
        rw [TimerWheel.rotation, hkept] at hlong
        omega
      · exact firesOnTime_of_short hi hms hsorted hfit hearly
  · intro ticks hsorted hnever
    apply firesOnTime_of_not_leaps hi hms hsorted hfit
    intro pre now s hpre hs _
    exact hnever pre now s hpre hs

/-- A timer of two milliseconds, under three ticks to nine. -/
theorem firesOnTime_iff_nineMilliseconds :
    FiresOnTime TimerWheel.defaultWheelSize (by decide) 2000000 () [3000000, 3500000] 9000000 :=
  (firesOnTime_iff TimerWheel.defaultWheelSize (by decide) 2000000 (by decide) (by decide) ()
    9000000 (by decide)).1.mpr (.inl (by decide)) [3000000, 3500000] (by decide)

/-- A timer of 300 milliseconds, under one tick to 300 and one to 344. -/
theorem longInterval_not_firesOnTime :
    ¬ FiresOnTime TimerWheel.defaultWheelSize (by decide) 300000000 () [300000000] 344000000 := by
  intro ⟨s, hs, hcount⟩
  let w := ((TimerWheel.new Unit TimerWheel.defaultWheelSize
    (by decide)).scheduleRecurring 300000000 ()).2
  have hrun : ((w.tick 400 300000000).bind fun r₁ => (r₁.wheel.tick 400 344000000).map fun r₂ =>
      r₁.fired.length + r₂.fired.length) = some 2 := by
    decide +kernel
  obtain ⟨r₁, hr₁, hrest⟩ := Option.bind_eq_some_iff.mp hrun
  obtain ⟨r₂, hr₂, htwo⟩ := Option.map_eq_some_iff.mp hrest
  rw [exec_scheduleRecurring, exec, List.singleton_append, List.map_cons, List.map_singleton,
    Runs.exec, perform_tick_eq_some.mpr ⟨400, r₁, hr₁, rfl⟩, Option.map_some,
    Option.bind_some, Runs.exec, perform_tick_eq_some.mpr ⟨400, r₂, hr₂, rfl⟩] at hs
  obtain rfl := Option.some.inj hs
  have hlength : r₁.fired.length + r₂.fired.length = 344000000 / 300000000 := by
    rw [← hcount]
    change _ = (([] ++ r₁.fired.map _) ++ r₂.fired.map _).length
    rw [List.length_append, List.nil_append, List.length_map, List.length_map]
  rw [htwo] at hlength
  exact absurd hlength (by decide)

end Watched

end UltraHft.Core
