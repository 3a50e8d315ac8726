import Mathlib.Data.List.Basic

namespace PdoDuckdb.Library.Loops

variable {σ ω : Type*} {step : σ → Option (List ω × σ)} {s s' s'' : σ} {l l' : List ω} {m n k : ℕ}

inductive Turns (step : σ → Option (List ω × σ)) : ℕ → σ → List ω → σ → Prop
  | zero (s : σ) : Turns step 0 s [] s
  | succ {n : ℕ} {s s' s'' : σ} {l l' : List ω} :
      step s = some (l, s') → Turns step n s' l' s'' → Turns step (n + 1) s (l ++ l') s''

theorem Turns.one (h : step s = some (l, s')) : Turns step 1 s l s' := by
  have hone := Turns.succ h (.zero s')
  rwa [List.append_nil] at hone

theorem Turns.trans (h : Turns step m s l s') (h' : Turns step n s' l' s'') :
    Turns step (m + n) s (l ++ l') s'' := by
  induction h with
  | zero => rwa [Nat.zero_add, List.nil_append]
  | succ hs _ ih =>
    rw [Nat.add_right_comm, List.append_assoc]
    exact .succ hs (ih h')

/-- What every turn keeps holds after any number of them. -/
theorem Turns.invariant {I : σ → Prop} (h : Turns step n s l s')
    (hstep : ∀ s l s', I s → step s = some (l, s') → I s') (hs : I s) : I s' := by
  induction h with
  | zero => exact hs
  | succ hturn _ ih => exact ih (hstep _ _ _ hs hturn)

def loop (step : σ → Option (List ω × σ)) : ℕ → σ → Option (List ω × σ)
  | 0, s =>
    match step s with
    | none => some ([], s)
    | some _ => none
  | n + 1, s =>
    match step s with
    | none => some ([], s)
    | some (l, s') => (loop step n s').map fun r ↦ (l ++ r.1, r.2)

theorem loop_of_end (h : step s = none) (k : ℕ) : loop step k s = some ([], s) := by
  cases k <;> simp [loop, h]

/-- A loop that comes to its end does so within any larger number of turns. -/
theorem Turns.loop_eq (h : Turns step n s l s') (hend : step s' = none) (hk : n ≤ k) :
    loop step k s = some (l, s') := by
  induction h generalizing k with
  | zero => exact loop_of_end hend k
  | succ hs _ ih =>
    obtain ⟨k, rfl⟩ := Nat.exists_eq_add_of_le' (Nat.one_le_of_lt hk)
    rw [loop, hs]
    dsimp only
    rw [ih hend (Nat.le_of_succ_le_succ hk)]
    rfl

end PdoDuckdb.Library.Loops
