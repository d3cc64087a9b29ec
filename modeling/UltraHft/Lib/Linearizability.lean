import Mathlib.Logic.Function.Basic
import UltraHft.Lib.Runs

/-!
# Linearizable histories

A sequential object is a function `apply` from a state and an operation to the
next state and the result.  A history of calls and returns is linearizable when
one can place a point between every call and its return such that applying the
operations at their points gives the results returned; an operation that has
not returned may or may not have had its point.  `Trace` is the machine that
places such points, and a simulation by it is a proof of linearizability.
-/

namespace UltraHft.Lib.Linearizability

open UltraHft.Lib

variable {S θ Op Ret σ ι : Type*}

/-- What a client of thread `t` sees. -/
inductive Event (θ Op Ret : Type*) where
  | call (t : θ) (op : Op)
  | ret (t : θ) (r : Ret)

inductive Status (Op Ret : Type*) where
  | idle
  | pending (op : Op)
  | done (r : Ret)

structure Atomic (S θ Op Ret : Type*) where
  state : S
  status : θ → Status Op Ret

def Atomic.new (s : S) : Atomic S θ Op Ret where
  state := s
  status := fun _ => .idle

inductive Step [DecidableEq θ] (apply : S → Op → S × Ret) :
    Atomic S θ Op Ret → Option (Event θ Op Ret) → Atomic S θ Op Ret → Prop where
  | call {a : Atomic S θ Op Ret} {t : θ} (op : Op) (h : a.status t = .idle) :
      Step apply a (some (.call t op))
        { a with status := Function.update a.status t (.pending op) }
  | point {a : Atomic S θ Op Ret} {t : θ} {op : Op} (h : a.status t = .pending op) :
      Step apply a none
        { state := (apply a.state op).1
          status := Function.update a.status t (.done (apply a.state op).2) }
  | ret {a : Atomic S θ Op Ret} {t : θ} {r : Ret} (h : a.status t = .done r) :
      Step apply a (some (.ret t r))
        { a with status := Function.update a.status t .idle }

inductive Trace [DecidableEq θ] (apply : S → Op → S × Ret) :
    Atomic S θ Op Ret → List (Event θ Op Ret) → Atomic S θ Op Ret → Prop where
  | refl (a : Atomic S θ Op Ret) : Trace apply a [] a
  | snoc {a b c : Atomic S θ Op Ret} {h : List (Event θ Op Ret)}
      {e : Option (Event θ Op Ret)} (hab : Trace apply a h b) (hbc : Step apply b e c) :
      Trace apply a (h ++ e.toList) c

def Linearizable [DecidableEq θ] (apply : S → Op → S × Ret) (s : S)
    (h : List (Event θ Op Ret)) : Prop :=
  ∃ a, Trace apply (Atomic.new s) h a

/-- The states of a machine together with the history of its visible steps. -/
def record (step : σ → ι → Option (σ × Option (Event θ Op Ret)))
    (s : σ × List (Event θ Op Ret)) (i : ι) : Option (σ × List (Event θ Op Ret)) :=
  (step s.1 i).map fun r => (r.1, s.2 ++ r.2.toList)

theorem record_eq_some {step : σ → ι → Option (σ × Option (Event θ Op Ret))}
    {s : σ × List (Event θ Op Ret)} {i : ι} {s' : σ × List (Event θ Op Ret)}
    (h : record step s i = some s') :
    ∃ e, step s.1 i = some (s'.1, e) ∧ s'.2 = s.2 ++ e.toList := by
  obtain ⟨r, hr, rfl⟩ := Option.map_eq_some_iff.mp h
  exact ⟨r.2, hr, rfl⟩

section Rules

variable [DecidableEq θ] {apply : S → Op → S × Ret} {a b c : Atomic S θ Op Ret}
  {h h' : List (Event θ Op Ret)} {e : Option (Event θ Op Ret)}

theorem Trace.single (hab : Step apply a e b) : Trace apply a e.toList b := by
  have h := Trace.snoc (Trace.refl a) hab
  rwa [List.nil_append] at h

theorem Trace.append (hab : Trace apply a h b) (hbc : Trace apply b h' c) :
    Trace apply a (h ++ h') c := by
  induction hbc with
  | refl => rwa [List.append_nil]
  | snoc _ hstep ih =>
      rw [← List.append_assoc]
      exact ih.snoc hstep

/-- Each step of the machine is a stretch of the atomic object's. -/
theorem linearizable_of_simulation
    {step : σ → ι → Option (σ × Option (Event θ Op Ret))}
    (R : σ → Atomic S θ Op Ret → Prop) {s₀ s : σ} {x₀ : S} {is : List ι}
    (h₀ : R s₀ (Atomic.new x₀))
    (hstep : ∀ t i t' e a, R t a → step t i = some (t', e) →
      ∃ a', Trace apply a e.toList a' ∧ R t' a')
    (hrun : Runs.exec (record step) (s₀, []) is = some (s, h)) :
    Linearizable apply x₀ h := by
  have hinv := Runs.exec_partial
    (fun _ t => ∃ a, Trace apply (Atomic.new x₀) t.2 a ∧ R t.1 a)
    ⟨Atomic.new x₀, Trace.refl _, h₀⟩ ?_ hrun
  · obtain ⟨a, htrace, -⟩ := hinv
    exact ⟨a, htrace⟩
  · rintro pre i t t' - - ⟨a, htrace, hR⟩ hrec
    obtain ⟨e, he, hhist⟩ := record_eq_some hrec
    obtain ⟨a', htrace', hR'⟩ := hstep t.1 i t'.1 e a hR he
    exact ⟨a', hhist ▸ htrace.append htrace', hR'⟩

end Rules

end UltraHft.Lib.Linearizability
