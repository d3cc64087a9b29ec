import Mathlib.Logic.Function.Iterate
import Mathlib.Logic.Relation
import Mathlib.Data.Nat.Find

/-!
# Unbounded loops

A `while` or `for (;;)` loop is a body that either hands on the next state or
leaves with a result.  `run` executes it for at most `fuel` iterations; a body
that itself contains a loop may fail to come back, which is `none`.  The loop
returns when some amount of fuel is enough and hangs when none is.
-/

namespace UltraHft.Lib.Loop

variable {σ τ ρ ω : Type*}

/-- At most `fuel` iterations of `body` from `s`. -/
def run (body : σ → Option (σ ⊕ ρ)) : Nat → σ → Option ρ
  | 0, _ => none
  | fuel + 1, s =>
      match body s with
      | none => none
      | some (.inl s') => run body fuel s'
      | some (.inr r) => some r

def Returns (body : σ → Option (σ ⊕ ρ)) (s : σ) (r : ρ) : Prop :=
  ∃ fuel, run body fuel s = some r

/-- No number of iterations makes the loop leave. -/
def Hangs (body : σ → Option (σ ⊕ ρ)) (s : σ) : Prop :=
  ∀ fuel, run body fuel s = none

/-- The iterations lead from `s` to `s'`, whether or not the loop ever leaves. -/
def Reaches (body : σ → Option (σ ⊕ ρ)) : σ → σ → Prop :=
  Relation.ReflTransGen fun t t' => body t = some (.inl t')

section Rules

variable {body : σ → Option (σ ⊕ ρ)} {s s' : σ} {r r' : ρ} {n m : Nat}

@[simp] theorem run_zero : run body 0 s = none := rfl

theorem run_succ_next (h : body s = some (.inl s')) :
    run body (n + 1) s = run body n s' := by
  simp [run, h]

theorem run_succ_leave (h : body s = some (.inr r)) :
    run body (n + 1) s = some r := by
  simp [run, h]

theorem run_succ_stuck (h : body s = none) : run body (n + 1) s = none := by
  simp [run, h]

theorem run_mono_body {body' : σ → Option (σ ⊕ ρ)}
    (hbody : ∀ t x, body t = some x → body' t = some x) (hnm : n ≤ m)
    (h : run body n s = some r) : run body' m s = some r := by
  induction n generalizing s m with
  | zero => simp at h
  | succ n ih =>
      obtain ⟨m, rfl⟩ : ∃ k, m = k + 1 := ⟨m - 1, by omega⟩
      cases hb : body s with
      | none => simp [run_succ_stuck hb] at h
      | some x =>
          cases x with
          | inl t =>
              rw [run_succ_next hb] at h
              rw [run_succ_next (hbody _ _ hb)]
              exact ih (by omega) h
          | inr q =>
              rw [run_succ_leave hb] at h
              rw [run_succ_leave (hbody _ _ hb), h]

theorem run_mono (hnm : n ≤ m) (h : run body n s = some r) :
    run body m s = some r :=
  run_mono_body (fun _ _ hx => hx) hnm h

theorem Returns.not_hangs (h : Returns body s r) : ¬ Hangs body s := by
  obtain ⟨n, hn⟩ := h
  intro hh
  simp [hh n] at hn

theorem hangs_iff : Hangs body s ↔ ∀ r, ¬ Returns body s r := by
  constructor
  · intro hh r hr
    exact hr.not_hangs hh
  · intro h n
    cases hn : run body n s with
    | none => rfl
    | some r => exact (h r ⟨n, hn⟩).elim

/-- Partial correctness: an invariant of the iterations gives the
postcondition at the exit. -/
theorem run_invariant (I : σ → Prop) (Q : ρ → Prop)
    (hnext : ∀ t t', I t → body t = some (.inl t') → I t')
    (hleave : ∀ t q, I t → body t = some (.inr q) → Q q)
    (hs : I s) (h : run body n s = some r) : Q r := by
  induction n generalizing s with
  | zero => simp at h
  | succ n ih =>
      cases hb : body s with
      | none => simp [run_succ_stuck hb] at h
      | some x =>
          cases x with
          | inl t =>
              rw [run_succ_next hb] at h
              exact ih (hnext s t hs hb) h
          | inr q =>
              rw [run_succ_leave hb] at h
              obtain rfl := Option.some.inj h
              exact hleave s q hs hb

theorem Reaches.invariant (I : σ → Prop)
    (hnext : ∀ t t', I t → body t = some (.inl t') → I t') (h : Reaches body s s')
    (hs : I s) : I s' := by
  induction h with
  | refl => exact hs
  | tail _ hstep ih => exact hnext _ _ ih hstep

/-- Termination: a body that always comes back and lowers a measure leaves
within one iteration more than the measure. -/
theorem run_measure (I : σ → Prop) (μ : σ → Nat)
    (hbody : ∀ t, I t → body t ≠ none)
    (hnext : ∀ t t', I t → body t = some (.inl t') → I t' ∧ μ t' < μ t)
    (hs : I s) (hn : μ s < n) : ∃ r, run body n s = some r := by
  induction n generalizing s with
  | zero => omega
  | succ n ih =>
      cases hb : body s with
      | none => exact (hbody s hs hb).elim
      | some x =>
          cases x with
          | inl t =>
              obtain ⟨ht, hμ⟩ := hnext s t hs hb
              rw [run_succ_next hb]
              exact ih ht (by omega)
          | inr q => exact ⟨q, run_succ_leave hb⟩

/-- Termination of nested loops: the body runs loops of its own, each of which
ends with some fuel of its own. -/
theorem exists_run_of_measure {body : Nat → σ → Option (σ ⊕ ρ)} (I : σ → Prop)
    (μ : σ → Nat) (hmono : ∀ n m t x, n ≤ m → body n t = some x → body m t = some x)
    (hstep : ∀ t, I t → ∃ n x, body n t = some x ∧ ∀ t', x = .inl t' → I t' ∧ μ t' < μ t)
    (hs : I s) : ∃ n r, run (body n) n s = some r := by
  induction hμ : μ s using Nat.strong_induction_on generalizing s with
  | h k ih =>
      subst hμ
      obtain ⟨n, x, hx, hnext⟩ := hstep s hs
      cases x with
      | inr r => exact ⟨n + 1, r, run_succ_leave (hmono n (n + 1) s _ (by omega) hx)⟩
      | inl t =>
          obtain ⟨ht, hlt⟩ := hnext t rfl
          obtain ⟨m, r, hr⟩ := ih (μ t) hlt ht rfl
          refine ⟨max n m + 1, r, ?_⟩
          rw [run_succ_next (hmono n _ s _ (by omega) hx)]
          exact run_mono_body (fun u y => hmono m _ u y (by omega)) (by omega) hr

/-- Divergence: an invariant under which the body never leaves. -/
theorem hangs_of_invariant (I : σ → Prop)
    (hstep : ∀ t, I t → body t = none ∨ ∃ t', body t = some (.inl t') ∧ I t')
    (hs : I s) : Hangs body s := by
  intro n
  induction n generalizing s with
  | zero => rfl
  | succ n ih =>
      rcases hstep s hs with hb | ⟨t, hb, ht⟩
      · exact run_succ_stuck hb
      · rw [run_succ_next hb]
        exact ih ht

/-- One loop simulates another, iteration by iteration, along `f`. -/
theorem run_map {body' : τ → Option (τ ⊕ ω)} (f : σ → τ) (g : ρ → ω)
    (I : σ → Prop)
    (hbody : ∀ t, I t → body' (f t) = (body t).map (Sum.map f g))
    (hnext : ∀ t t', I t → body t = some (.inl t') → I t') (hs : I s) :
    run body' n (f s) = (run body n s).map g := by
  induction n generalizing s with
  | zero => rfl
  | succ n ih =>
      have hf := hbody s hs
      cases hb : body s with
      | none =>
          rw [hb] at hf
          rw [run_succ_stuck hb, run_succ_stuck hf]
          rfl
      | some x =>
          rw [hb] at hf
          cases x with
          | inl t =>
              rw [run_succ_next hb, run_succ_next hf]
              exact ih (hnext s t hs hb)
          | inr q =>
              rw [run_succ_leave hb, run_succ_leave hf]
              rfl

end Rules

/-! ## Outcomes

A program with loops, as a function of the fuel that each of them gets. -/

section Outcome

variable {f : Nat → Option ρ} {r : ρ}

open Classical in
noncomputable def outcome (f : Nat → Option ρ) : Option ρ :=
  if h : ∃ n r, f n = some r then f h.choose else none

theorem outcome_eq_some (hmono : ∀ n m r, n ≤ m → f n = some r → f m = some r) :
    outcome f = some r ↔ ∃ n, f n = some r := by
  unfold outcome
  constructor
  · intro h
    split_ifs at h with hex
    exact ⟨_, h⟩
  · intro ⟨n, hn⟩
    have hex : ∃ n r, f n = some r := ⟨n, r, hn⟩
    rw [dif_pos hex]
    obtain ⟨q, hq⟩ := hex.choose_spec
    have h₁ := hmono _ (max n hex.choose) q (Nat.le_max_right ..) hq
    have h₂ := hmono _ (max n hex.choose) r (Nat.le_max_left ..) hn
    rw [hq, ← h₁, h₂]

end Outcome

/-! ## Scanning loops -/

/-- The loop that steps along `next` until `stop` holds. -/
def scan (next : σ → σ) (stop : σ → Bool) (s : σ) : Option (σ ⊕ σ) :=
  some (if stop s then .inr s else .inl (next s))

theorem run_scan_eq_some {next : σ → σ} {stop : σ → Bool} {n : Nat} {s t : σ} :
    run (scan next stop) n s = some t ↔
      ∃ d < n, next^[d] s = t ∧ stop t ∧ ∀ e < d, ¬ stop (next^[e] s) := by
  induction n generalizing s with
  | zero => simp
  | succ n ih =>
      by_cases hs : stop s
      · have hleave : scan next stop s = some (.inr s) := by simp [scan, hs]
        rw [run_succ_leave hleave]
        constructor
        · intro h
          obtain rfl := Option.some.inj h
          exact ⟨0, by omega, rfl, hs, by simp⟩
        · rintro ⟨d, -, rfl, -, hd⟩
          cases d with
          | zero => rfl
          | succ d => exact (hd 0 (by omega) hs).elim
      · have hnext : scan next stop s = some (.inl (next s)) := by simp [scan, hs]
        rw [run_succ_next hnext, ih]
        constructor
        · rintro ⟨d, hdn, ht, hstop, hbefore⟩
          refine ⟨d + 1, by omega, ht, hstop, ?_⟩
          intro e he
          cases e with
          | zero => exact hs
          | succ e => exact hbefore e (by omega)
        · rintro ⟨d, hdn, ht, hstop, hbefore⟩
          cases d with
          | zero =>
              obtain rfl : s = t := ht
              exact (hs hstop).elim
          | succ d =>
              refine ⟨d, by omega, ht, hstop, ?_⟩
              intro e he
              exact hbefore (e + 1) (by omega)

theorem hangs_scan_iff {next : σ → σ} {stop : σ → Bool} {s : σ} :
    Hangs (scan next stop) s ↔ ∀ d, ¬ stop (next^[d] s) := by
  rw [hangs_iff]
  constructor
  · intro h d hd
    -- the first state of the walk at which `stop` holds is where the loop leaves
    have hex : ∃ d, stop (next^[d] s) = true := ⟨d, hd⟩
    refine h (next^[Nat.find hex] s) ⟨Nat.find hex + 1, run_scan_eq_some.mpr ?_⟩
    exact ⟨Nat.find hex, by omega, rfl, Nat.find_spec hex, fun e he => Nat.find_min hex he⟩
  · rintro h t ⟨n, hn⟩
    obtain ⟨d, -, rfl, hstop, -⟩ := run_scan_eq_some.mp hn
    exact h d hstop

end UltraHft.Lib.Loop
