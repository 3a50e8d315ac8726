import Mathlib.Data.Fin.Tuple.Basic

namespace PdoDuckdb.Library.Families

variable {ε α : Type} {n : ℕ}

/-- The results of a family, in order, or the first error. -/
def collect : {n : ℕ} → (Fin n → Except ε α) → Except ε (Fin n → α)
  | 0, _ => .ok fun k ↦ k.elim0
  | n + 1, f =>
    match f 0 with
    | .error e => .error e
    | .ok a =>
      match collect (n := n) fun k ↦ f k.succ with
      | .error e => .error e
      | .ok g => .ok (Fin.cons a g)

theorem collect_ok {f : Fin n → Except ε α} {g : Fin n → α} (h : ∀ k, f k = .ok (g k)) : collect f = .ok g := by
  induction n with
  | zero => exact congrArg Except.ok (funext fun k : Fin 0 ↦ k.elim0)
  | succ n ih =>
    rw [collect, h 0]
    dsimp only
    rw [ih fun k ↦ h k.succ]
    exact congrArg _ (Fin.cons_self_tail g)

end PdoDuckdb.Library.Families
