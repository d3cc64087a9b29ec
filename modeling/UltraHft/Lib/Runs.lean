import Mathlib.Data.List.Induction

/-!
# Runs of a partial step function

A component that answers one call at a time is a function
`step : σ → ι → Option σ`, where `none` is a call that does not return.  `exec`
runs a list of calls.  The run rules carry a predicate of the calls made so far
and of the state they led to.
-/

namespace UltraHft.Lib.Runs

variable {σ ι : Type*} {step : σ → ι → Option σ} {s s' : σ} {calls : List ι}

def exec (step : σ → ι → Option σ) : σ → List ι → Option σ
  | s, [] => some s
  | s, i :: is => (step s i).bind fun t => exec step t is

@[simp] theorem exec_nil : exec step s [] = some s := rfl

theorem exec_append (xs ys : List ι) :
    exec step s (xs ++ ys) = (exec step s xs).bind fun t => exec step t ys := by
  induction xs generalizing s with
  | nil => rfl
  | cons x xs ih =>
      cases hx : step s x with
      | none => simp [exec, hx]
      | some t => simp [exec, hx, ih]

theorem exec_snoc (xs : List ι) (i : ι) :
    exec step s (xs ++ [i]) = (exec step s xs).bind fun t => step t i := by
  rw [exec_append]
  congr 1
  funext t
  cases h : step t i <;> simp [exec, h]

theorem exec_map {κ : Type*} (f : κ → ι) (args : List κ) :
    exec step s (args.map f) = exec (fun t a => step t (f a)) s args := by
  induction args generalizing s with
  | nil => rfl
  | cons a args ih =>
      rw [List.map_cons, exec, exec]
      simp only [ih]

theorem exec_prefix {pre : List ι} (h : exec step s calls = some s')
    (hpre : pre <+: calls) : ∃ t, exec step s pre = some t := by
  obtain ⟨suf, rfl⟩ := hpre
  rw [exec_append] at h
  cases ht : exec step s pre with
  | none => simp [ht] at h
  | some t => exact ⟨t, rfl⟩

/-- Total correctness: each call returns and keeps the predicate. -/
theorem exec_total (P : List ι → σ → Prop) (h₀ : P [] s)
    (hstep : ∀ pre i t, pre ++ [i] <+: calls → exec step s pre = some t → P pre t →
      ∃ t', step t i = some t' ∧ P (pre ++ [i]) t') :
    ∃ t, exec step s calls = some t ∧ P calls t := by
  induction calls using List.reverseRecOn with
  | nil => exact ⟨s, rfl, h₀⟩
  | append_singleton xs x ih =>
      obtain ⟨t, ht, hP⟩ := ih fun pre i t hpre =>
        hstep pre i t (hpre.trans (List.prefix_append xs [x]))
      obtain ⟨t', ht', hP'⟩ := hstep xs x t List.prefix_rfl ht hP
      exact ⟨t', by rw [exec_snoc, ht]; exact ht', hP'⟩

/-- Partial correctness: each call that returns keeps the predicate. -/
theorem exec_partial (P : List ι → σ → Prop) (h₀ : P [] s)
    (hstep : ∀ pre i t t', pre ++ [i] <+: calls → exec step s pre = some t → P pre t →
      step t i = some t' → P (pre ++ [i]) t')
    (h : exec step s calls = some s') : P calls s' := by
  induction calls using List.reverseRecOn generalizing s' with
  | nil =>
      obtain rfl := Option.some.inj h
      exact h₀
  | append_singleton xs x ih =>
      rw [exec_snoc] at h
      cases ht : exec step s xs with
      | none => simp [ht] at h
      | some t =>
          have hP := ih (fun pre i t t' hpre =>
            hstep pre i t t' (hpre.trans (List.prefix_append xs [x]))) ht
          rw [ht] at h
          exact hstep xs x t s' List.prefix_rfl ht hP h

/-- Where a call returns exactly when it is good, a run returns exactly when all
its calls are. -/
theorem exec_returns_iff (P : List ι → σ → Prop) (Good : σ → ι → Prop) (h₀ : P [] s)
    (hkeep : ∀ pre i t t', P pre t → step t i = some t' → P (pre ++ [i]) t')
    (hgood : ∀ pre i t, pre ++ [i] <+: calls → P pre t →
      ((∃ t', step t i = some t') ↔ Good t i)) :
    (∃ t, exec step s calls = some t) ↔
      ∀ pre i, pre ++ [i] <+: calls → ∀ t, exec step s pre = some t → Good t i := by
  constructor
  · intro ⟨u, hu⟩ pre i hpre t ht
    have hP : P pre t :=
      exec_partial P h₀ (fun pre i t t' _ _ hP hstep => hkeep pre i t t' hP hstep) ht
    obtain ⟨t', ht'⟩ := exec_prefix hu hpre
    rw [exec_snoc, ht] at ht'
    exact (hgood pre i t hpre hP).mp ⟨t', ht'⟩
  · intro hall
    have htotal : ∃ t, exec step s calls = some t ∧ P calls t := by
      apply exec_total P h₀
      intro pre i t hpre ht hP
      obtain ⟨t', ht'⟩ := (hgood pre i t hpre hP).mpr (hall pre i hpre t ht)
      exact ⟨t', ht', hkeep pre i t t' hP ht'⟩
    obtain ⟨t, ht, -⟩ := htotal
    exact ⟨t, ht⟩

/-- An invariant kept by the good calls gives the property, and a bad call
breaks the property at once: then the property holds throughout a run exactly
when all its calls are good. -/
theorem exec_iff_good (P Q : List ι → σ → Prop) (Good : σ → ι → Prop) (h₀ : P [] s)
    (hPQ : ∀ pre t, pre <+: calls → exec step s pre = some t → P pre t → Q pre t)
    (hstep : ∀ pre i t, pre ++ [i] <+: calls → exec step s pre = some t → P pre t →
      ∃ t', step t i = some t' ∧ (Good t i → P (pre ++ [i]) t') ∧
        (¬ Good t i → ¬ Q (pre ++ [i]) t')) :
    (∀ pre, pre <+: calls → ∃ t, exec step s pre = some t ∧ Q pre t) ↔
      ∀ pre i, pre ++ [i] <+: calls → ∀ t, exec step s pre = some t → Good t i := by
  have hgood : ∀ {pre}, pre <+: calls →
      (∀ p i, p ++ [i] <+: pre → ∀ t, exec step s p = some t → Good t i) →
      ∃ t, exec step s pre = some t ∧ P pre t := by
    intro pre hpre hall
    apply exec_total P h₀
    intro p i t hp ht hP
    obtain ⟨t', ht', hgood, -⟩ := hstep p i t (hp.trans hpre) ht hP
    exact ⟨t', ht', hgood (hall p i hp t ht)⟩
  constructor
  · intro hQ
    -- by induction on the calls: all calls before a given one are good
    have hinits : ∀ pre, pre <+: calls →
        ∀ p i, p ++ [i] <+: pre → ∀ t, exec step s p = some t → Good t i := by
      intro pre
      induction pre using List.reverseRecOn with
      | nil =>
          intro _ p i hp
          simp at hp
      | append_singleton xs x ih =>
          intro hpre p i hp t ht
          have hxs := (List.prefix_append xs [x]).trans hpre
          rcases List.prefix_concat_iff.mp hp with heq | hp'
          · obtain ⟨rfl, hx⟩ := List.append_inj' heq rfl
            obtain rfl : i = x := by simpa using hx
            obtain ⟨t₀, ht₀, hP⟩ := hgood hxs (ih hxs)
            obtain rfl : t₀ = t := Option.some.inj (ht₀.symm.trans ht)
            obtain ⟨t', ht', -, hbad⟩ := hstep p i t₀ hpre ht₀ hP
            by_contra hno
            obtain ⟨t'', ht'', hQ'⟩ := hQ (p ++ [i]) hpre
            rw [exec_snoc, ht₀] at ht''
            obtain rfl : t' = t'' := Option.some.inj (ht'.symm.trans ht'')
            exact hbad hno hQ'
          · exact ih hxs p i hp' t ht
    intro pre i hpre
    exact hinits _ hpre pre i List.prefix_rfl
  · intro hall pre hpre
    obtain ⟨t, ht, hP⟩ := hgood hpre fun p i hp => hall p i (hp.trans hpre)
    exact ⟨t, ht, hPQ pre t hpre ht hP⟩

end UltraHft.Lib.Runs
