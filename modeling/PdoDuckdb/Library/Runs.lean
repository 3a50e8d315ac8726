import Mathlib.Data.List.Basic

namespace PdoDuckdb.Library.Runs

variable {σ ε : Type*} {step : σ → ε → σ} {s : σ} {es es' : List ε}

def run (step : σ → ε → σ) (s : σ) (es : List ε) : σ := es.foldl step s

@[simp] theorem run_nil : run step s [] = s := rfl

@[simp] theorem run_cons (e : ε) : run step s (e :: es) = run step (step s e) es := rfl

theorem run_append : run step s (es ++ es') = run step (run step s es) es' :=
  List.foldl_append

theorem run_snoc (e : ε) : run step s (es ++ [e]) = step (run step s es) e := by
  rw [run_append, run_cons, run_nil]

/-- Every step of a run is taken in a state that admits its event. -/
inductive Guarded (step : σ → ε → σ) (admits : σ → ε → Prop) : σ → List ε → Prop
  | nil (s : σ) : Guarded step admits s []
  | cons {s : σ} {e : ε} {es : List ε} :
      admits s e → Guarded step admits (step s e) es → Guarded step admits s (e :: es)

/-- What every step keeps holds after every run. -/
theorem invariant {I : σ → Prop} (hstep : ∀ s e, I s → I (step s e)) (hs : I s) (es : List ε) :
    I (run step s es) := by
  induction es generalizing s with
  | nil => exact hs
  | cons e es ih => exact ih (hstep s e hs)

/-- What every admitted step keeps holds after every guarded run. -/
theorem Guarded.invariant {admits : σ → ε → Prop} {I : σ → Prop} (h : Guarded step admits s es)
    (hstep : ∀ s e, I s → admits s e → I (step s e)) (hs : I s) : I (run step s es) := by
  induction h with
  | nil => exact hs
  | cons he _ ih => exact ih (hstep _ _ hs he)

theorem Guarded.left {admits : σ → ε → Prop} (h : Guarded step admits s (es ++ es')) :
    Guarded step admits s es := by
  induction es generalizing s with
  | nil => exact .nil s
  | cons e es ih =>
    cases h with
    | cons he h => exact .cons he (ih h)

theorem Guarded.right {admits : σ → ε → Prop} (h : Guarded step admits s (es ++ es')) :
    Guarded step admits (run step s es) es' := by
  induction es generalizing s with
  | nil => exact h
  | cons e es ih =>
    cases h with
    | cons he h => exact ih h

/-- A run is guarded exactly when each of its steps is admitted where the run
has got to. -/
theorem guarded_iff {admits : σ → ε → Prop} :
    Guarded step admits s es ↔
      ∀ es₁ e es₂, es = es₁ ++ e :: es₂ → admits (run step s es₁) e := by
  constructor
  · intro h
    induction h with
    | nil => simp
    | @cons s e es he _ ih =>
      intro es₁ e' es₂ heq
      cases es₁ with
      | nil =>
        obtain ⟨rfl, -⟩ := List.cons.inj heq
        exact he
      | cons a es₁ =>
        obtain ⟨rfl, htail⟩ := List.cons.inj heq
        exact ih es₁ e' es₂ htail
  · intro h
    induction es generalizing s with
    | nil => exact .nil s
    | cons e es ih =>
      refine .cons (h [] e es rfl) (ih fun es₁ e' es₂ heq ↦ ?_)
      exact h (e :: es₁) e' es₂ (by rw [heq, List.cons_append])

end PdoDuckdb.Library.Runs
