import Mathlib.Data.List.ReduceOption
import PdoDuckdb.Sql.Plan

namespace PdoDuckdb.Sql

open Byte Library.Scanning

def Piece.isPdo : Piece → Bool
  | .named | .positional => true
  | _ => false

def Piece.isNative : Piece → Bool
  | .native _ _ _ _ => true
  | _ => false

/-- What the plan has at one piece: nothing, or a placeholder, native or not. -/
abbrev Mark := Option (Bool × Placeholder)

/-- The marks of the pieces from an offset on. A native parameter whose number does
not fit has none. -/
inductive Marks : ℕ → List (Lexeme Byte Piece) → List Mark → Prop
  | nil (o : ℕ) : Marks o [] []
  | plain {o : ℕ} {l : Lexeme Byte Piece} {ls : List (Lexeme Byte Piece)} {ms : List Mark} :
      l.kind.isPdo = false → Marks (o + l.text.length) ls ms → Marks o (l :: ls) (none :: ms)
  | pdo {o : ℕ} {l : Lexeme Byte Piece} {ls : List (Lexeme Byte Piece)} {ms : List Mark}
      (index : ℕ) :
      l.kind.isPdo → Marks (o + l.text.length) ls ms →
      Marks o (l :: ls) (some (false, ⟨o, l.text.length, index, true⟩) :: ms)
  | native {o : ℕ} {l : Lexeme Byte Piece} {ls : List (Lexeme Byte Piece)} {ms : List Mark}
      {numeric : Bool} {nameStart nameLength : ℕ} {mark : Option Byte} (position : ℕ) :
      l.kind = .native numeric nameStart nameLength mark → Marks (o + l.text.length) ls ms →
      Marks o (l :: ls) (some (true, ⟨o, l.text.length, position, numeric⟩) :: ms)

def pdoOf : Mark → Option Placeholder
  | some (false, p) => some p
  | _ => none

def nativeOf : Mark → Option Placeholder
  | some (true, p) => some p
  | _ => none

def withoutNative : Mark → Mark
  | some (false, p) => some (false, p)
  | _ => none

theorem pdoOf_eq_some {m : Mark} {p : Placeholder} : pdoOf m = some p ↔ m = some (false, p) := by
  rcases m with - | ⟨- | -, q⟩ <;> simp [pdoOf]

theorem nativeOf_eq_some {m : Mark} {p : Placeholder} :
    nativeOf m = some p ↔ m = some (true, p) := by
  rcases m with - | ⟨- | -, q⟩ <;> simp [nativeOf]

variable {o : ℕ} {l : Lexeme Byte Piece} {ls : List (Lexeme Byte Piece)} {ms : List Mark}

theorem Marks.append {ls' : List (Lexeme Byte Piece)} {ms' : List Mark} (h : Marks o ls ms)
    (h' : Marks (o + (source ls).length) ls' ms') : Marks o (ls ++ ls') (ms ++ ms') := by
  induction h with
  | nil => simpa using h'
  | plain hk _ ih =>
    exact .plain hk (ih (by simpa [Nat.add_assoc] using h'))
  | pdo index hk _ ih =>
    exact .pdo index hk (ih (by simpa [Nat.add_assoc] using h'))
  | native position hk _ ih =>
    exact .native position hk (ih (by simpa [Nat.add_assoc] using h'))

theorem Marks.withoutNative (h : Marks o ls ms) : Marks o ls (ms.map withoutNative) := by
  induction h with
  | nil => exact .nil _
  | plain hk _ ih => exact .plain hk ih
  | pdo index hk _ ih => exact .pdo index hk ih
  | native position hk _ ih => exact .plain (by rw [hk]; rfl) ih

theorem Marks.offset_le (h : Marks o ls ms) : ∀ b p, some (b, p) ∈ ms → o ≤ p.offset := by
  induction h with
  | nil => simp
  | plain _ _ ih =>
    intro b p hp
    rcases List.mem_cons.mp hp with hp | hp
    · cases hp
    · exact Nat.le_of_add_right_le (ih b p hp)
  | pdo _ _ _ ih | native _ _ _ ih =>
    intro b p hp
    rcases List.mem_cons.mp hp with hp | hp
    · cases hp
      exact Nat.le_refl _
    · exact Nat.le_of_add_right_le (ih b p hp)

theorem mergeLoop_cons_pdo {fuel : ℕ} {p : Placeholder} {ps ns : List Placeholder}
    (h : ∀ n ∈ ns, p.offset ≤ n.offset) :
    mergeLoop (fuel + 1) (p :: ps) ns = (false, p) :: mergeLoop fuel ps ns := by
  cases ns with
  | nil => rfl
  | cons n ns =>
    have hn : ¬n.offset < p.offset := Nat.not_lt.mpr (h n List.mem_cons_self)
    simp only [mergeLoop, if_neg hn]

theorem mergeLoop_cons_native {fuel : ℕ} {n : Placeholder} {ps ns : List Placeholder}
    (h : ∀ p ∈ ps, n.offset < p.offset) :
    mergeLoop (fuel + 1) ps (n :: ns) = (true, n) :: mergeLoop fuel ps ns := by
  cases ps with
  | nil => rfl
  | cons p ps => simp only [mergeLoop, if_pos (h p List.mem_cons_self)]

theorem Marks.mergeLoop_eq (h : Marks o ls ms) (hls : ∀ l ∈ ls, l.text ≠ []) {fuel : ℕ}
    (hfuel : (ms.filterMap pdoOf).length + (ms.filterMap nativeOf).length = fuel) :
    mergeLoop fuel (ms.filterMap pdoOf) (ms.filterMap nativeOf) = ms.reduceOption := by
  induction h generalizing fuel with
  | nil =>
    subst hfuel
    rfl
  | plain hk _ ih => exact ih (fun l hl ↦ hls l (List.mem_cons_of_mem _ hl)) hfuel
  | @pdo o l ls ms index hk hms ih =>
    obtain ⟨-, hls⟩ := List.forall_mem_cons.mp hls
    simp only [List.filterMap_cons, pdoOf, nativeOf, List.length_cons] at hfuel ⊢
    obtain ⟨fuel, rfl⟩ : ∃ n, fuel = n + 1 := ⟨fuel - 1, by omega⟩
    rw [mergeLoop_cons_pdo, ih hls (by omega)]
    · rfl
    · intro n hn
      obtain ⟨m, hm, hmn⟩ := List.mem_filterMap.mp hn
      rw [nativeOf_eq_some.mp hmn] at hm
      exact Nat.le_of_add_right_le (hms.offset_le true n hm)
  | @native o l ls ms numeric nameStart nameLength mark position hk hms ih =>
    obtain ⟨hl, hls⟩ := List.forall_mem_cons.mp hls
    have hlen := List.length_pos_of_ne_nil hl
    simp only [List.filterMap_cons, pdoOf, nativeOf, List.length_cons] at hfuel ⊢
    obtain ⟨fuel, rfl⟩ : ∃ n, fuel = n + 1 := ⟨fuel - 1, by omega⟩
    rw [mergeLoop_cons_native, ih hls (by omega)]
    · rfl
    · intro n hn
      obtain ⟨m, hm, hmn⟩ := List.mem_filterMap.mp hn
      rw [pdoOf_eq_some.mp hmn] at hm
      have := hms.offset_le false n hm
      dsimp only
      omega

/-- Merging the placeholders by offset gives the marks back. -/
theorem Marks.merge_eq (h : Marks o ls ms) (hls : ∀ l ∈ ls, l.text ≠ []) :
    merge (ms.filterMap pdoOf) (ms.filterMap nativeOf) = ms.reduceOption :=
  h.mergeLoop_eq hls rfl

def image (f : Bool → Placeholder → List Byte) :
    List (Lexeme Byte Piece) → List Mark → List Byte
  | _ :: ls, some (native, p) :: ms => f native p ++ image f ls ms
  | l :: ls, none :: ms => l.text ++ image f ls ms
  | ls, [] => source ls
  | [], _ => []

theorem Marks.renderLoop_eq (h : Marks o ls ms) (plan : Plan) (values : Option (List Binding))
    (probe : Bool) {copied : ℕ} (hcopied : copied ≤ o) (hsql : plan.sql.drop o = source ls) :
    plan.renderLoop values probe copied ms.reduceOption =
      (plan.sql.drop copied).take (o - copied) ++ image (plan.replacement values probe) ls ms := by
  induction h generalizing copied with
  | nil o =>
    have hdrop : (plan.sql.drop copied).drop (o - copied) = [] := by
      rw [List.drop_drop, Nat.add_sub_cancel' hcopied, hsql]
      rfl
    have hlen := List.drop_eq_nil_iff.mp hdrop
    simp [Plan.renderLoop, image, List.take_of_length_le hlen, List.reduceOption_nil]
  | @plain o l ls _ _ _ ih =>
    have hdrop : plan.sql.drop (o + l.text.length) = source ls := by
      rw [← List.drop_drop, hsql, source_cons, List.drop_left]
    have hsplit : (plan.sql.drop copied).take (o + l.text.length - copied) =
        (plan.sql.drop copied).take (o - copied) ++ l.text := by
      have hadd : o + l.text.length - copied = (o - copied) + l.text.length := by omega
      rw [hadd, List.take_add, List.drop_drop, Nat.add_sub_cancel' hcopied, hsql, source_cons,
        List.take_left]
    have hle : copied ≤ o + l.text.length := by omega
    have htail := ih hle hdrop
    rw [hsplit, List.append_assoc] at htail
    exact htail
  | @pdo o l ls ms index hk hms ih | @native o l ls ms _ _ _ _ index hk hms ih =>
    have hdrop : plan.sql.drop (o + l.text.length) = source ls := by
      rw [← List.drop_drop, hsql, source_cons, List.drop_left]
    have htail := ih (Nat.le_refl _) hdrop
    simp only [Nat.sub_self, List.take_zero, List.nil_append] at htail
    simp only [List.reduceOption_cons_of_some, Plan.renderLoop, image, htail, List.append_assoc]

end PdoDuckdb.Sql
