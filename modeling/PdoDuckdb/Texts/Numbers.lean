import PdoDuckdb.Decimals.Routes
import PdoDuckdb.Library.Reading

namespace PdoDuckdb.Texts

open Byte Library Decimals

section Values

variable {n k : ℕ} {s t : List Byte}

def nextDigit (n : ℕ) (c : Byte) : ℕ := 10 * n + (c.toNat - 0x30)

def digitsValue (s : List Byte) : ℕ := s.foldl nextDigit 0

theorem foldl_nextDigit (s : List Byte) (n : ℕ) :
    s.foldl nextDigit n = n * 10 ^ s.length + digitsValue s := by
  unfold digitsValue
  induction s generalizing n with
  | nil => simp
  | cons c s ih =>
    rw [List.foldl_cons, List.foldl_cons, ih, ih (nextDigit 0 c), List.length_cons, Nat.pow_succ']
    unfold nextDigit
    ring

theorem digitsValue_append (s t : List Byte) :
    digitsValue (s ++ t) = digitsValue s * 10 ^ t.length + digitsValue t := by
  rw [digitsValue, List.foldl_append, foldl_nextDigit]
  rfl

theorem digitsValue_digitByte (h : n < 10) : digitsValue [digitByte n] = n := by
  interval_cases n <;> rfl

theorem digitsValue_decimal (n : ℕ) : digitsValue (decimal n) = n := by
  induction n using Nat.strong_induction_on with
  | _ n ih =>
    have hlast : digitsValue [digitByte (n % 10)] = n % 10 := digitsValue_digitByte (Nat.mod_lt n (by decide))
    rw [decimal_eq, digitsValue_append, hlast, List.length_singleton, Nat.pow_one]
    split_ifs with hn
    · exact (Nat.zero_add _).trans (Nat.mod_eq_of_lt hn)
    · rw [ih (n / 10) (by omega)]
      omega

theorem digitsValue_zeros (k : ℕ) : digitsValue (List.replicate k 0x30) = 0 := by
  induction k with
  | zero => rfl
  | succ k ih => exact ih

theorem digitsValue_leftpad (k : ℕ) (s : List Byte) : digitsValue (s.leftpad k 0x30) = digitsValue s := by
  rw [List.leftpad, digitsValue_append, digitsValue_zeros, Nat.zero_mul, Nat.zero_add]

/-- Zeros at the end are powers of ten. -/
theorem digitsValue_rightpad (s : List Byte) (k : ℕ) :
    digitsValue (s ++ List.replicate k 0x30) = digitsValue s * 10 ^ k := by
  rw [digitsValue_append, digitsValue_zeros, List.length_replicate, Nat.add_zero]

theorem isDigit_of_mem_leftpad {c : Byte} (hs : ∀ c ∈ s, isDigit c) (hc : c ∈ s.leftpad k 0x30) : isDigit c := by
  rw [List.leftpad, List.mem_append] at hc
  rcases hc with hc | hc
  · rw [List.eq_of_mem_replicate hc]
    rfl
  · exact hs c hc

end Values

section Canonical

variable {s : List Byte} {n : ℕ}

/-- Digits, of which the first is 0 only where it is the only one. -/
def IsNatural (s : List Byte) : Prop :=
  s ≠ [] ∧ (∀ c ∈ s, isDigit c) ∧ (s.head? = some 0x30 → s = [0x30])

/-- A natural number, or a minus and one that is not 0. -/
def IsInteger (s : List Byte) : Prop :=
  IsNatural s ∨ ∃ t, s = minus :: t ∧ IsNatural t ∧ t ≠ [0x30]

theorem head?_decimal (h : ¬ n < 10) : (decimal n).head? = (decimal (n / 10)).head? := by
  rw [decimal_eq n, if_neg h, List.head?_append_of_ne_nil _ (decimal_ne_nil _)]

theorem head?_decimal_ne (hn : n ≠ 0) : (decimal n).head? ≠ some 0x30 := by
  induction n using Nat.strong_induction_on with
  | _ n ih =>
    by_cases h : n < 10
    · rw [decimal_of_lt h]
      interval_cases n <;> first | exact absurd rfl hn | decide
    · rw [head?_decimal h]
      exact ih (n / 10) (by omega) (by omega)

theorem isNatural_decimal (n : ℕ) : IsNatural (decimal n) := by
  refine ⟨decimal_ne_nil n, fun _ hc ↦ isDigit_of_mem_decimal hc, fun h ↦ ?_⟩
  by_cases hn : n = 0
  · rw [hn]
    rfl
  · exact absurd h (head?_decimal_ne hn)

theorem isInteger_signedDecimal (v : ℤ) : IsInteger (signedDecimal v) := by
  unfold signedDecimal
  split_ifs with hv
  · have hne : v.natAbs ≠ 0 := by omega
    refine Or.inr ⟨_, rfl, isNatural_decimal _, fun h ↦ head?_decimal_ne hne ?_⟩
    rw [h]
    rfl
  · exact Or.inl (isNatural_decimal _)

end Canonical

section Readers

variable {s : List Byte} {n : ℕ}

def readNatural : Reader Byte ℕ :=
  (Reader.span isDigit).andThen fun digits ↦
    if digits = [] then fun _ ↦ none else Reader.result (digitsValue digits)

def readSigned (p : Reader Byte ℕ) : Reader Byte ℤ :=
  Reader.branch minus (p.map fun n : ℕ ↦ -(n : ℤ)) (p.map fun n : ℕ ↦ (n : ℤ))

def readInteger : Reader Byte ℤ := readSigned readNatural

theorem reads_natural (hne : s ≠ []) (hs : ∀ c ∈ s, isDigit c) :
    Reads (fun c ↦ ¬ isDigit c) readNatural s (digitsValue s) := by
  have hspan : Reads (fun c ↦ ¬ isDigit c) (Reader.span isDigit) s s := Reads.span hs
  apply hspan.andThen_nil
  rw [if_neg hne]
  exact Reads.result _

theorem reads_decimal (n : ℕ) : Reads (fun c ↦ ¬ isDigit c) readNatural (decimal n) n := by
  have h := reads_natural (decimal_ne_nil n) fun _ hc ↦ isDigit_of_mem_decimal hc
  rwa [digitsValue_decimal] at h

/-- A text that starts with a digit has no sign. -/
theorem ends_of_isDigit {a : Byte} (ha : isDigit a = false) (hne : s ≠ []) (hs : ∀ c ∈ s, isDigit c) (r : List Byte) :
    Delimited.Ends (· ≠ a) (s ++ r) := by
  intro c hc hca
  obtain ⟨d, t, rfl⟩ := List.exists_cons_of_ne_nil hne
  cases hc
  have hd := hs c List.mem_cons_self
  rw [hca, ha] at hd
  cases hd

theorem reads_sign {D : Byte → Prop} {p : Reader Byte ℕ} (neg : Prop) [Decidable neg] (hp : Reads D p s n)
    (hs : ∀ r, Delimited.Ends (· ≠ minus) (s ++ r)) :
    Reads D (readSigned p) ((if neg then [minus] else []) ++ s) (if neg then -(n : ℤ) else n) := by
  unfold readSigned
  split_ifs
  · exact Reads.branch_taken (hp.map fun n : ℕ ↦ -(n : ℤ))
  · exact Reads.branch_skipped (hp.map fun n : ℕ ↦ (n : ℤ)) fun r _ ↦ hs r

theorem reads_signed {D : Byte → Prop} {p : Reader Byte ℕ} {v : ℤ} (hp : Reads D p s v.natAbs)
    (hs : ∀ r, Delimited.Ends (· ≠ minus) (s ++ r)) :
    Reads D (readSigned p) ((if v < 0 then [minus] else []) ++ s) v := by
  have h := reads_sign (v < 0) hp hs
  rwa [show (if v < 0 then -(v.natAbs : ℤ) else v.natAbs) = v by split_ifs <;> omega] at h

theorem signedDecimal_eq (v : ℤ) : signedDecimal v = (if v < 0 then [minus] else []) ++ decimal v.natAbs := by
  unfold signedDecimal
  split_ifs <;> rfl

theorem reads_signedDecimal (v : ℤ) : Reads (fun c ↦ ¬ isDigit c) readInteger (signedDecimal v) v := by
  rw [signedDecimal_eq]
  exact reads_signed (reads_decimal v.natAbs)
    (ends_of_isDigit rfl (decimal_ne_nil _) fun _ hc ↦ isDigit_of_mem_decimal hc)

end Readers

end PdoDuckdb.Texts
