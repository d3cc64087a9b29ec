import Mathlib.Logic.Function.Basic
import UltraHft.Lib.Runs

/-!
# The lifetimes of objects

A log of what has been constructed, assigned to and destroyed, and where.  An
object is constructed at a place that has none; only an object that lives is
assigned to or destroyed.  If nothing lives at the end of such a log, then
every object in it has been destroyed exactly once.
-/

namespace UltraHft.Lib.Lifetimes

variable {ι α : Type*}

inductive Event (ι α : Type*) where
  | born (place : ι) (object : α)
  | changes (place : ι) (object : α)
  | dies (place : ι)
  deriving Repr, DecidableEq

def Event.place : Event ι α → ι
  | .born place _ => place
  | .changes place _ => place
  | .dies place => place

def LivesOn (p : ι) (log : List (Event ι α)) : Prop :=
  ∀ e ∈ log, e.place = p → ∃ x, e = .changes p x

/-- Between its construction and its destruction an object is at most assigned to;
neither is without the other. -/
structure Paired (log : List (Event ι α)) : Prop where
  dies : ∀ pre p x post, log = pre ++ .born p x :: post →
    ∃ mid rest, post = mid ++ .dies p :: rest ∧ LivesOn p mid
  born : ∀ pre p post, log = pre ++ .dies p :: post →
    ∃ rest x mid, pre = rest ++ .born p x :: mid ∧ LivesOn p mid

section Storage

variable [DecidableEq ι] {m m' : ι → Option α} {p : ι} {log : List (Event ι α)} {e : Event ι α}

/-- What the storage holds after an event; `none` is an event that may not be. -/
def next (m : ι → Option α) : Event ι α → Option (ι → Option α)
  | .born p x => if (m p).isNone then some (Function.update m p (some x)) else none
  | .changes p x => if (m p).isSome then some (Function.update m p (some x)) else none
  | .dies p => if (m p).isSome then some (Function.update m p none) else none

/-- What lives after a log that starts with an empty storage. -/
def after (log : List (Event ι α)) : Option (ι → Option α) :=
  Runs.exec next (fun _ => none) log

theorem next_born (h : m p = none) (x : α) :
    next m (.born p x) = some (Function.update m p (some x)) := by
  simp [next, h]

theorem next_changes (h : (m p).isSome) (x : α) :
    next m (.changes p x) = some (Function.update m p (some x)) := by
  simp [next, h]

theorem next_dies (h : (m p).isSome) :
    next m (.dies p) = some (Function.update m p none) := by
  simp [next, h]

theorem next_cases (h : next m e = some m') :
    (∃ x, e = .born e.place x ∧ m e.place = none ∧ m' = Function.update m e.place (some x)) ∨
    (∃ x, e = .changes e.place x ∧ (m e.place).isSome ∧
      m' = Function.update m e.place (some x)) ∨
    (e = .dies e.place ∧ (m e.place).isSome ∧ m' = Function.update m e.place none) := by
  cases e with
  | born p x =>
      obtain ⟨hfree, hm'⟩ := Option.ite_none_right_eq_some.mp h
      exact .inl ⟨x, rfl, Option.isNone_iff_eq_none.mp hfree, (Option.some.inj hm').symm⟩
  | changes p x =>
      obtain ⟨hlive, hm'⟩ := Option.ite_none_right_eq_some.mp h
      exact .inr (.inl ⟨x, rfl, hlive, (Option.some.inj hm').symm⟩)
  | dies p =>
      obtain ⟨hlive, hm'⟩ := Option.ite_none_right_eq_some.mp h
      exact .inr (.inr ⟨rfl, hlive, (Option.some.inj hm').symm⟩)

theorem next_elsewhere (h : next m e = some m') (hp : e.place ≠ p) : m' p = m p := by
  rcases next_cases h with ⟨x, -, -, rfl⟩ | ⟨x, -, -, rfl⟩ | ⟨-, -, rfl⟩
  · exact Function.update_of_ne (Ne.symm hp) _ _
  · exact Function.update_of_ne (Ne.symm hp) _ _
  · exact Function.update_of_ne (Ne.symm hp) _ _

theorem next_here (h : next m e = some m') (hp : e.place = p) :
    (∃ x, e = .born p x ∧ m p = none ∧ m' p = some x) ∨
    (∃ x, e = .changes p x ∧ (m p).isSome ∧ m' p = some x) ∨
    (e = .dies p ∧ (m p).isSome ∧ m' p = none) := by
  subst hp
  rcases next_cases h with ⟨x, he, hfree, rfl⟩ | ⟨x, he, hlive, rfl⟩ | ⟨he, hlive, rfl⟩
  · exact .inl ⟨x, he, hfree, Function.update_self _ _ _⟩
  · exact .inr (.inl ⟨x, he, hlive, Function.update_self _ _ _⟩)
  · exact .inr (.inr ⟨he, hlive, Function.update_self _ _ _⟩)

/-- What lives at the start of a log and not at its end is destroyed in between:
the first time that anything is constructed or destroyed there. -/
theorem dies_of_gone (h : Runs.exec next m log = some m') (hlive : (m p).isSome)
    (hgone : m' p = none) : ∃ mid rest, log = mid ++ .dies p :: rest ∧ LivesOn p mid := by
  induction log generalizing m with
  | nil =>
      obtain rfl := Option.some.inj h
      rw [hgone] at hlive
      cases hlive
  | cons e log ih =>
      obtain ⟨m₁, hstep, hrest⟩ := Option.bind_eq_some_iff.mp h
      by_cases hp : e.place = p
      · rcases next_here hstep hp with ⟨x, -, hfree, -⟩ | ⟨x, rfl, -, hx⟩ | ⟨rfl, -, -⟩
        · rw [hfree] at hlive
          cases hlive
        · obtain ⟨mid, rest, rfl, hmid⟩ := ih hrest (by rw [hx]; rfl)
          refine ⟨.changes p x :: mid, rest, rfl, ?_⟩
          rintro e' he' hplace
          rcases List.mem_cons.mp he' with rfl | he'
          · exact ⟨x, rfl⟩
          · exact hmid e' he' hplace
        · exact ⟨[], log, rfl, by simp [LivesOn]⟩
      · obtain ⟨mid, rest, rfl, hmid⟩ := ih hrest (by rwa [next_elsewhere hstep hp])
        refine ⟨e :: mid, rest, rfl, ?_⟩
        rintro e' he' hplace
        rcases List.mem_cons.mp he' with rfl | he'
        · exact absurd hplace hp
        · exact hmid e' he' hplace

/-- What lives at the end of a log and not at its start is constructed in between,
and then stays. -/
theorem born_of_live (h : Runs.exec next m log = some m') (hfree : m p = none)
    (hlive : (m' p).isSome) :
    ∃ rest x mid, log = rest ++ .born p x :: mid ∧ LivesOn p mid := by
  induction log using List.reverseRecOn generalizing m' with
  | nil =>
      obtain rfl := Option.some.inj h
      rw [hfree] at hlive
      cases hlive
  | append_singleton log e ih =>
      rw [Runs.exec_snoc] at h
      obtain ⟨m₁, hrest, hstep⟩ := Option.bind_eq_some_iff.mp h
      by_cases hp : e.place = p
      · rcases next_here hstep hp with ⟨x, rfl, -, -⟩ | ⟨x, rfl, hlive₁, -⟩ | ⟨-, -, hgone⟩
        · exact ⟨log, x, [], rfl, by simp [LivesOn]⟩
        · obtain ⟨rest, y, mid, rfl, hmid⟩ := ih hrest hlive₁
          refine ⟨rest, y, mid ++ [.changes p x], by simp, ?_⟩
          rintro e' he' hplace
          rcases List.mem_append.mp he' with he' | he'
          · exact hmid e' he' hplace
          · exact ⟨x, List.mem_singleton.mp he'⟩
        · rw [hgone] at hlive
          cases hlive
      · obtain ⟨rest, y, mid, rfl, hmid⟩ := ih hrest (by rwa [← next_elsewhere hstep hp])
        refine ⟨rest, y, mid ++ [e], by simp, ?_⟩
        rintro e' he' hplace
        rcases List.mem_append.mp he' with he' | he'
        · exact hmid e' he' hplace
        · rw [List.mem_singleton.mp he'] at hplace
          exact absurd hplace hp

theorem after_split {pre post : List (Event ι α)} (h : after (pre ++ e :: post) = some m) :
    ∃ m₀ m₁, after pre = some m₀ ∧ next m₀ e = some m₁ ∧ Runs.exec next m₁ post = some m := by
  rw [after, Runs.exec_append] at h
  obtain ⟨m₀, hpre, hrest⟩ := Option.bind_eq_some_iff.mp h
  obtain ⟨m₁, hstep, hpost⟩ := Option.bind_eq_some_iff.mp hrest
  exact ⟨m₀, m₁, hpre, hstep, hpost⟩

/-- **If nothing lives at the end, every object has been destroyed once.** -/
theorem paired_of_after (h : after log = some fun _ => none) : Paired log := by
  constructor
  · rintro pre p x post rfl
    obtain ⟨m₀, m₁, -, hstep, hpost⟩ := after_split h
    rcases next_here hstep rfl with ⟨y, -, -, hy⟩ | ⟨_, ⟨⟩, -, -⟩ | ⟨⟨⟩, -, -⟩
    exact dies_of_gone hpost (by rw [show m₁ p = some y from hy]; rfl) rfl
  · rintro pre p post rfl
    obtain ⟨m₀, m₁, hpre, hstep, -⟩ := after_split h
    obtain ⟨hlive, -⟩ := Option.ite_none_right_eq_some.mp hstep
    exact born_of_live hpre rfl hlive

theorem after_snoc (h : after log = some m) (e : Event ι α) : after (log ++ [e]) = next m e := by
  rw [after, Runs.exec_snoc]
  rw [after] at h
  rw [h, Option.bind_some]

end Storage

end UltraHft.Lib.Lifetimes
