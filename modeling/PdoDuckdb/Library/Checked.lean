import Mathlib.Data.List.Basic

namespace PdoDuckdb.Library.Checked

universe u

variable {ε : Type*} {β γ : Type u}

theorem bind_eq_ok {x : Except ε β} {f : β → Except ε γ} {b : γ} :
    (x >>= f) = .ok b ↔ ∃ a, x = .ok a ∧ f a = .ok b := by
  cases x <;> simp [bind, Except.bind]

end PdoDuckdb.Library.Checked
