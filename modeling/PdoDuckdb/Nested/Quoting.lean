import PdoDuckdb.Bytes

namespace PdoDuckdb.Nested

open Byte

/-- `pdo_duckdb_varchar_quote_table`. -/
def varcharQuoteTable (v2 : Bool) (c : Byte) : Bool :=
  c == doubleQuote || c == quote || c == leftParen || c == rightParen || c == comma ||
    c == colon || c == equals || c == openBracket || c == closeBracket || c == openBrace ||
    c == closeBrace || v2 && c == backslash

def isNullWord : List Byte → Bool
  | [n, u, l, m] =>
    (n == 0x6e || n == 0x4e) && (u == 0x75 || u == 0x55) && (l == 0x6c || l == 0x4c) &&
      (m == 0x6c || m == 0x4c)
  | _ => false

/-- `pdo_duckdb_nested_varchar_needs_quotes`. -/
def nestedVarcharNeedsQuotes (v2 : Bool) (s : List Byte) : Bool :=
  s.isEmpty || s.head?.any isBlank || 2 ≤ s.length && s.getLast?.any isBlank || isNullWord s ||
    s.any (varcharQuoteTable v2)

def escapedByte (c : Byte) : List Byte :=
  if c = quote ∨ c = backslash then [backslash, c] else [c]

/-- `pdo_duckdb_smart_append_escaped_varchar`. -/
def escapedVarchar (v2 : Bool) (s : List Byte) : List Byte :=
  if s.isEmpty then [quote, quote]
  else if ¬ nestedVarcharNeedsQuotes v2 s then s
  else quote :: (s.flatMap escapedByte ++ [quote])

/-- The engine's test for a value that is not a key: empty, padded with a blank,
`null` in any case, or with one of the special bytes. -/
def IsQuoted (v2 : Bool) (s : List Byte) : Prop :=
  s = [] ∨ (∃ c ∈ s.head?, isBlank c) ∨ (∃ c ∈ s.getLast?, isBlank c) ∨ isNullWord s ∨
    ∃ c ∈ s, varcharQuoteTable v2 c

instance (v2 : Bool) (s : List Byte) : Decidable (IsQuoted v2 s) := by
  unfold IsQuoted
  infer_instance

/-- `quote_nested` of a value that is not a key. -/
def quoteNested (v2 : Bool) (s : List Byte) : List Byte :=
  if IsQuoted v2 s then quote :: (s.flatMap escapedByte ++ [quote]) else s

theorem nestedVarcharNeedsQuotes_iff (v2 : Bool) (s : List Byte) :
    nestedVarcharNeedsQuotes v2 s ↔ IsQuoted v2 s := by
  cases s with
  | nil => simp [nestedVarcharNeedsQuotes, IsQuoted]
  | cons c s =>
    cases s with
    | nil => simp [nestedVarcharNeedsQuotes, IsQuoted, isNullWord]
    | cons d s => simp [nestedVarcharNeedsQuotes, IsQuoted, Option.any_eq_true, or_assoc]

theorem escapedVarchar_eq (v2 : Bool) (s : List Byte) : escapedVarchar v2 s = quoteNested v2 s := by
  unfold escapedVarchar quoteNested
  cases s with
  | nil => simp [IsQuoted]
  | cons c s =>
    have hiff := nestedVarcharNeedsQuotes_iff v2 (c :: s)
    rw [if_neg (by simp)]
    by_cases h : IsQuoted v2 (c :: s)
    · rw [if_neg (not_not_intro (hiff.mpr h)), if_pos h]
    · rw [if_pos (mt hiff.mp h), if_neg h]

def isBare (c : Byte) : Bool := isLetter c || isDigit c || c == minus || c == 0x2b || c == 0x2e

theorem isBare_plain (v2 : Bool) : ∀ c : Byte, isBare c → ¬ isBlank c ∧ ¬ varcharQuoteTable v2 c := by
  cases v2
  · exact forall_byte (by decide)
  · exact forall_byte (by decide)

/-- Text of bare bytes that is not a spelling of `null` goes without quotes. -/
theorem quoteNested_bare (v2 : Bool) {s : List Byte} (hne : s ≠ []) (hbare : ∀ c ∈ s, isBare c)
    (hnull : ¬ isNullWord s) : quoteNested v2 s = s := by
  apply if_neg
  intro h
  rcases h with h | ⟨c, hc, hblank⟩ | ⟨c, hc, hblank⟩ | h | ⟨c, hc, htable⟩
  · exact hne h
  · exact (isBare_plain v2 c (hbare c (List.mem_of_head? hc))).1 hblank
  · exact (isBare_plain v2 c (hbare c (List.mem_of_getLast? hc))).1 hblank
  · exact hnull h
  · exact (isBare_plain v2 c (hbare c hc)).2 htable

end PdoDuckdb.Nested
