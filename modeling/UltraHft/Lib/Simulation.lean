import UltraHft.Lib.Runs

/-!
# Simulation by a machine that always answers

`answers` runs a machine that answers one call at a time and need not return:
`none` is a call that does not.  `trace` runs an abstract machine, which always
does.  If every step is matched by one of the abstract machine, with the answer
that it gives, so is every run.
-/

namespace UltraHft.Lib.Simulation

variable {σ τ ι κ ρ α : Type*}

def answers (step : σ → ι → Option (ρ × σ)) : σ → List ι → Option (List ρ × σ)
  | s, [] => some ([], s)
  | s, i :: is => (step s i).bind fun r =>
      (answers step r.2 is).map fun rest => (r.1 :: rest.1, rest.2)

def trace (next : τ → κ → α × τ) : τ → List κ → List α × τ
  | t, [] => ([], t)
  | t, k :: ks =>
      let r := next t k
      let rest := trace next r.2 ks
      (r.1 :: rest.1, rest.2)

section Runs

variable {step : σ → ι → Option (ρ × σ)} {next : τ → κ → α × τ} {s s' : σ} {t : τ}

@[simp] theorem answers_nil : answers step s [] = some ([], s) := rfl

@[simp] theorem trace_nil : trace next t [] = ([], t) := rfl

theorem answers_snoc (is : List ι) (i : ι) :
    answers step s (is ++ [i]) = (answers step s is).bind fun before =>
      (step before.2 i).map fun r => (before.1 ++ [r.1], r.2) := by
  induction is generalizing s with
  | nil =>
      rw [List.nil_append, answers_nil, Option.bind_some]
      cases hstep : step s i <;> simp [answers, hstep]
  | cons j is ih =>
      rw [List.cons_append, answers, answers]
      cases step s j with
      | none => rfl
      | some r =>
          rw [Option.bind_some, Option.bind_some, ih]
          cases answers step r.2 is with
          | none => rfl
          | some before => cases hlast : step before.2 i <;> simp [hlast]

theorem trace_snoc (ks : List κ) (k : κ) :
    trace next t (ks ++ [k]) =
      ((trace next t ks).1 ++ [(next (trace next t ks).2 k).1],
        (next (trace next t ks).2 k).2) := by
  induction ks generalizing t with
  | nil => rfl
  | cons j ks ih =>
      rw [List.cons_append, trace, trace]
      dsimp only
      rw [ih]
      rfl

theorem exec_eq_answers (is : List ι) :
    Runs.exec (fun s i => (step s i).map Prod.snd) s is = (answers step s is).map Prod.snd := by
  induction is generalizing s with
  | nil => rfl
  | cons i is ih =>
      rw [Runs.exec, answers]
      cases step s i with
      | none => rfl
      | some r =>
          rw [Option.map_some, Option.bind_some, Option.bind_some, ih, Option.map_map]
          rfl

end Runs

/-- Under `Good`, a call from related states is answered, as the abstract machine
answers it, and leaves related states. -/
def Matches (step : σ → ι → Option (ρ × σ)) (next : τ → κ → α × τ) (call : ι → κ)
    (answer : ρ → α) (R : σ → τ → Prop) (Good : σ → τ → ι → Prop) : Prop :=
  ∀ s t i, R s t → Good s t i → ∃ r s', step s i = some (r, s') ∧
    answer r = (next t (call i)).1 ∧ R s' (next t (call i)).2

/-- A run whose calls are all good is matched by the abstract machine. -/
theorem Matches.answers {step : σ → ι → Option (ρ × σ)} {next : τ → κ → α × τ} {call : ι → κ}
    {answer : ρ → α} {R : σ → τ → Prop} {Good : σ → τ → ι → Prop} {s : σ} {t : τ}
    (h : Matches step next call answer R Good) (hR : R s t) (calls : List ι)
    (hgood : ∀ pre i, pre ++ [i] <+: calls → ∀ before, answers step s pre = some before →
      Good before.2 (trace next t (pre.map call)).2 i) :
    ∃ given s', answers step s calls = some (given, s') ∧
      given.map answer = (trace next t (calls.map call)).1 ∧
      R s' (trace next t (calls.map call)).2 := by
  induction calls using List.reverseRecOn with
  | nil => exact ⟨[], s, rfl, rfl, hR⟩
  | append_singleton is i ih =>
      obtain ⟨given, s', hrun, hgiven, hR'⟩ := ih fun pre j hpre =>
        hgood pre j (hpre.trans (List.prefix_append is [i]))
      obtain ⟨r, s'', hstep, hr, hR''⟩ :=
        h s' _ i hR' (hgood is i List.prefix_rfl (given, s') hrun)
      refine ⟨given ++ [r], s'', ?_, ?_, ?_⟩
      · rw [answers_snoc, hrun, Option.bind_some, hstep]
        rfl
      · rw [List.map_append, List.map_append, List.map_singleton, List.map_singleton, trace_snoc,
          hgiven, hr]
      · rwa [List.map_append, List.map_singleton, trace_snoc]

theorem rel_bind {γ δ : Type*} {r : σ → τ → Prop} {r' : γ → δ → Prop} {x : Option σ}
    {y : Option τ} {f : σ → Option γ} {g : τ → Option δ} (h : Option.Rel r x y)
    (hfg : ∀ a b, x = some a → r a b → Option.Rel r' (f a) (g b)) :
    Option.Rel r' (x.bind f) (y.bind g) := by
  cases h with
  | none => exact .none
  | some hab => exact hfg _ _ rfl hab

theorem rel_map {γ δ : Type*} {r : σ → τ → Prop} {r' : γ → δ → Prop} {x : Option σ}
    {y : Option τ} {f : σ → γ} {g : τ → δ} (h : Option.Rel r x y)
    (hfg : ∀ a b, r a b → r' (f a) (g b)) : Option.Rel r' (x.map f) (y.map g) := by
  cases h with
  | none => exact .none
  | some hab => exact .some (hfg _ _ hab)

theorem rel_map_eq {γ : Type*} {r : σ → τ → Prop} {x : Option σ} {y : Option τ} {f : σ → γ}
    {g : τ → γ} (h : Option.Rel r x y) (hfg : ∀ a b, r a b → f a = g b) :
    x.map f = y.map g := by
  cases h with
  | none => rfl
  | some hab => exact congrArg some (hfg _ _ hab)

theorem exists_of_rel {r : σ → τ → Prop} {a : σ} {y : Option τ} (h : Option.Rel r (some a) y) :
    ∃ b, y = some b ∧ r a b := by
  cases h with
  | some hab => exact ⟨_, rfl, hab⟩

/-- Under `Good`, a call from related states returns in both machines or in neither;
if it does, the answers are the same and the states related. -/
def Lockstep (step : σ → ι → Option (ρ × σ)) (next : τ → ι → Option (ρ × τ)) (R : σ → τ → Prop)
    (Good : σ → ι → Prop) : Prop :=
  ∀ s t i, R s t → Good s i →
    Option.Rel (fun r r' => r.1 = r'.1 ∧ R r.2 r'.2) (step s i) (next t i)

theorem Lockstep.answers {step : σ → ι → Option (ρ × σ)} {next : τ → ι → Option (ρ × τ)}
    {R : σ → τ → Prop} {Good : σ → ι → Prop} {s : σ} {t : τ} (h : Lockstep step next R Good)
    (hR : R s t) (calls : List ι)
    (hgood : ∀ pre i, pre ++ [i] <+: calls → ∀ before, answers step s pre = some before →
      Good before.2 i) :
    Option.Rel (fun r r' => r.1 = r'.1 ∧ R r.2 r'.2) (answers step s calls)
      (answers next t calls) := by
  induction calls using List.reverseRecOn with
  | nil => exact .some ⟨rfl, hR⟩
  | append_singleton is i ih =>
      have hrun := ih fun pre j hpre => hgood pre j (hpre.trans (List.prefix_append is [i]))
      rw [answers_snoc, answers_snoc]
      apply rel_bind hrun
      rintro before before' hbefore ⟨hgiven, hR'⟩
      apply rel_map (h _ _ i hR' (hgood is i List.prefix_rfl before hbefore))
      rintro r r' ⟨hanswer, hR''⟩
      exact ⟨congrArg₂ (fun given answer => given ++ [answer]) hgiven hanswer, hR''⟩

end UltraHft.Lib.Simulation
