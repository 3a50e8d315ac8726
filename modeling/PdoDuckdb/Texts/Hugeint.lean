import PdoDuckdb.Texts.Numbers

namespace PdoDuckdb.Texts

open Byte Library Decimals

/-- `pdo_duckdb_hugeint_to_string`: the digits go behind the sign, to an `out` of 41 bytes. -/
def hugeintToString (haveInt128 : Bool) (upper : Int64) (lower : UInt64) : Option (List Byte) :=
  if upper < 0 then
    (formatU128 haveInt128 (Nested.negated upper.toUInt64 lower).1 (Nested.negated upper.toUInt64 lower).2 40).bind
      fun digits ↦ (copyOut 40 digits).map fun digits ↦ minus :: digits
  else formatU128 haveInt128 upper.toUInt64 lower 40

variable {upper : Int64} {lower : UInt64}

theorem formatU128_magnitude (haveInt128 : Bool) (upper : Int64) (lower : UInt64) :
    formatU128 haveInt128 (magnitude upper lower).1 (magnitude upper lower).2 40 =
      some (decimal (Stored.hugeint upper lower).value.natAbs) := by
  rw [formatU128_eq haveInt128 _ _ (by decide), wide_magnitude]

theorem hugeint_neg_iff : (Stored.hugeint upper lower).value < 0 ↔ upper < 0 := by
  have hlower := lower.toNat_lt
  rw [Int64.lt_iff_toInt_lt, Int64.toInt_zero]
  show upper.toInt * 0x10000000000000000 + lower.toNat < 0 ↔ _
  omega

theorem length_decimal_hugeint (upper : Int64) (lower : UInt64) :
    (decimal (Stored.hugeint upper lower).value.natAbs).length ≤ 40 := by
  have hlt := wide_lt (magnitude upper lower).1 (magnitude upper lower).2
  rw [wide_magnitude] at hlt
  exact length_decimal_le (by decide) (Nat.lt_trans hlt (by decide))

theorem hugeintToString_eq (haveInt128 : Bool) (upper : Int64) (lower : UInt64) :
    hugeintToString haveInt128 upper lower = some (signedDecimal (Stored.hugeint upper lower).value) := by
  have hdigits := formatU128_magnitude haveInt128 upper lower
  unfold magnitude at hdigits
  unfold hugeintToString signedDecimal
  by_cases hneg : upper < 0
  · have hroom := length_decimal_hugeint upper lower
    rw [if_pos hneg] at hdigits
    rw [if_pos hneg, if_pos (hugeint_neg_iff.mpr hneg), hdigits, Option.bind_some, copyOut, if_pos hroom]
    rfl
  · rw [if_neg hneg] at hdigits
    rw [if_neg hneg, if_neg (mt hugeint_neg_iff.mp hneg)]
    exact hdigits

/-- The renderer of nested values takes the same text. -/
theorem hugeintToString_nested (haveInt128 : Bool) (upper : Int64) (lower : UInt64) :
    hugeintToString haveInt128 upper lower = some (Nested.hugeintToString upper.toUInt64 lower) := by
  unfold hugeintToString Nested.hugeintToString
  rw [isNegative_toUInt64, formatU128_nested haveInt128 _ _ (by decide),
    formatU128_nested haveInt128 _ _ (by decide)]
  by_cases hneg : upper < 0
  · have hroom := (length_formatU128 (Nested.negated upper.toUInt64 lower).1
      (Nested.negated upper.toUInt64 lower).2).trans (by decide : 39 ≤ 40)
    rw [if_pos hneg, if_pos (decide_eq_true hneg), Option.bind_some, copyOut, if_pos hroom]
    rfl
  · rw [if_neg hneg, if_neg (by simp [hneg])]

/-- The text of two words does not depend on the compiler, and no text of a
`duckdb_hugeint` is that of another. -/
theorem hugeint_texts :
    (∀ upper lower : UInt64, ∃ text, (∀ haveInt128, formatU128 haveInt128 upper lower 40 = some text) ∧
      text.length ≤ 40 ∧ IsNatural text ∧
      digitsValue text = upper.toNat * 0x10000000000000000 + lower.toNat) ∧
    ∀ (upper : Int64) (lower : UInt64), ∃ text,
      (∀ haveInt128, hugeintToString haveInt128 upper lower = some text) ∧ IsInteger text ∧
      readInteger.whole text = some (upper.toInt * 0x10000000000000000 + lower.toNat) := by
  constructor
  · intro upper lower
    refine ⟨decimal (wide upper lower), fun _ ↦ formatU128_eq _ _ _ (by decide), ?_, isNatural_decimal _,
      digitsValue_decimal _⟩
    exact length_decimal_le (by decide) (Nat.lt_trans (wide_lt upper lower) (by decide))
  · intro upper lower
    exact ⟨_, fun _ ↦ hugeintToString_eq _ upper lower, isInteger_signedDecimal _,
      (reads_signedDecimal (Stored.hugeint upper lower).value).whole⟩

/-- The least number, whose magnitude has no positive counterpart. -/
example : hugeintToString false Int64.minValue 0 =
    some (ascii "-170141183460469231731687303715884105728") := by
  rw [hugeintToString_eq]
  decide

end PdoDuckdb.Texts
