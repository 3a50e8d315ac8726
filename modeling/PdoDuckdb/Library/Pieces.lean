import Mathlib.Data.List.Basic

namespace PdoDuckdb.Library

variable {α : Type*}

/-- Pieces of a list, each with its place, where none begins before the end of the
one before it; and the end of the last. -/
inductive Pieces (source : List α) : List (ℕ × List α) → ℕ → Prop
  | nil : Pieces source [] 0
  | snoc {pieces : List (ℕ × List α)} {c start : ℕ} {piece : List α} :
      Pieces source pieces c → c ≤ start → start + piece.length ≤ source.length →
      (source.drop start).take piece.length = piece →
      Pieces source (pieces ++ [(start, piece)]) (start + piece.length)

namespace Pieces

variable {source : List α} {pieces : List (ℕ × List α)} {c : ℕ}

theorem le_length (h : Pieces source pieces c) : c ≤ source.length := by
  cases h with
  | nil => exact Nat.zero_le _
  | snoc _ _ hend _ => exact hend

theorem sublist_take (h : Pieces source pieces c) :
    (pieces.map Prod.snd).flatten.Sublist (source.take c) := by
  induction h with
  | nil => exact List.nil_sublist _
  | @snoc pieces c start piece _ hstart _ hpiece ih =>
    rw [List.map_append, List.flatten_append, List.take_add, hpiece]
    exact (ih.trans (List.take_sublist_take_left hstart)).append (by simp)

/-- Put together, with what is left after the last, they take each element of the
list once at most. -/
theorem sublist (h : Pieces source pieces c) :
    ((pieces.map Prod.snd).flatten ++ source.drop c).Sublist source := by
  have happend := h.sublist_take.append (List.Sublist.refl (source.drop c))
  rwa [List.take_append_drop] at happend

end Pieces

end PdoDuckdb.Library
