import Mathlib.Data.List.Basic

/-!
# Programs that call the outside

A program makes calls whose results the outside chooses.  What it promises is
stated with a monitor that sees every call and its result: `Ensures` says that
the monitor rejects no call, whatever the results, and gives what holds when the
program returns.
-/

namespace UltraHft.Lib.Outside

/-- A call `c` has a result of type `R c`; a program need not return. -/
inductive Prog (C : Type) (R : C → Type) (α : Type) where
  | ret (a : α)
  | call (c : C) (next : R c → Prog C R α)
  | hang

abbrev Event (C : Type) (R : C → Type) : Type := Sigma R

variable {C D : Type} {R : C → Type} {S : D → Type} {α β σ : Type}

namespace Prog

def bind : Prog C R α → (α → Prog C R β) → Prog C R β
  | ret a, f => f a
  | call c next, f => call c fun r => (next r).bind f
  | hang, _ => hang

instance : Monad (Prog C R) where
  pure := ret
  bind := bind

def perform (c : C) : Prog C R (R c) := call c ret

def ofOption : Option α → Prog C R α
  | some a => ret a
  | none => hang

def inr : Prog D S α → Prog (C ⊕ D) (Sum.elim R S) α
  | ret a => ret a
  | call d next => call (.inr d) fun r => (next r).inr
  | hang => hang

/-- The calls made and what is returned, when the outside answers by what has
happened so far. -/
def run (outside : List (Event C R) → (c : C) → R c) :
    List (Event C R) → Prog C R α → List (Event C R) × Option α
  | _, ret a => ([], some a)
  | past, call c next =>
      let r := outside past c
      let rest := run outside (past ++ [⟨c, r⟩]) (next r)
      (⟨c, r⟩ :: rest.1, rest.2)
  | _, hang => ([], none)

/-- From monitor state `s` no call is rejected, and `Q` holds of what is returned
and of the monitor then. -/
def Ensures (monitor : σ → Event C R → Option σ) : σ → Prog C R α → (α → σ → Prop) → Prop
  | s, ret a, Q => Q a s
  | s, call c next, Q => ∀ r, ∃ t, monitor s ⟨c, r⟩ = some t ∧ Ensures monitor t (next r) Q
  | _, hang, _ => True

section Rules

variable {monitor : σ → Event C R → Option σ} {s : σ} {p : Prog C R α}
  {Q Q' : α → σ → Prop}

theorem ensures_bind {f : α → Prog C R β} {Q : β → σ → Prop}
    (h : Ensures monitor s p fun a t => Ensures monitor t (f a) Q) :
    Ensures monitor s (p >>= f) Q := by
  induction p generalizing s with
  | ret a => exact h
  | call c next ih =>
      intro r
      obtain ⟨t, ht, hnext⟩ := h r
      exact ⟨t, ht, ih r hnext⟩
  | hang => trivial

theorem ensures_ite {c : Prop} [Decidable c] {q : Prog C R α}
    (hp : c → Ensures monitor s p Q) (hq : ¬ c → Ensures monitor s q Q) :
    Ensures monitor s (if c then p else q) Q := by
  split_ifs with hc
  · exact hp hc
  · exact hq hc

/-- The monitor accepts every run, and what is ensured holds of its end. -/
theorem Ensures.run (h : Ensures monitor s p Q)
    (outside : List (Event C R) → (c : C) → R c) (past : List (Event C R)) :
    ∃ t, (run outside past p).1.foldlM monitor s = some t ∧
      ∀ a, (run outside past p).2 = some a → Q a t := by
  induction p generalizing s past with
  | ret a =>
      refine ⟨s, rfl, ?_⟩
      intro a' ha
      rw [← Option.some.inj ha]
      exact h
  | call c next ih =>
      obtain ⟨t, ht, hnext⟩ := h (outside past c)
      obtain ⟨u, hu, hQ⟩ := ih _ hnext (past ++ [⟨c, outside past c⟩])
      refine ⟨u, ?_, hQ⟩
      rw [Prog.run, List.foldlM_cons, ht]
      exact hu
  | hang => exact ⟨s, rfl, fun a ha => by cases ha⟩

end Rules

end Prog

end UltraHft.Lib.Outside
