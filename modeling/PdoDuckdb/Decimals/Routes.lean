import PdoDuckdb.Decimals.Digits
import PdoDuckdb.Nested.Distinctness

namespace PdoDuckdb.Decimals

open Byte

/-- A DECIMAL in a vector, by the width that it is stored in. -/
inductive Stored
  | smallint (v : Int16)
  | integer (v : Int32)
  | bigint (v : Int64)
  | hugeint (upper : Int64) (lower : UInt64)

def Stored.value : Stored → ℤ
  | .smallint v => v.toInt
  | .integer v => v.toInt
  | .bigint v => v.toInt
  | .hugeint upper lower => upper.toInt * 0x10000000000000000 + lower.toNat

section Routes

/-- A write at the end of what is in `out`; `none` is a write outside its 43 bytes. -/
def put (out s : List Byte) : Option (List Byte) :=
  if out.length + s.length ≤ 43 then some (out ++ s) else none

/-- `pdo_duckdb_decimal_digits_to_string`. -/
def decimalDigitsToString (digits : List Byte) (neg : Bool) (width scale : ℕ) : Option (List Byte) :=
  (put [] (if neg then [minus] else [])).bind fun out ↦
    if scale = 0 then put out digits
    else if digits.length ≤ scale then
      (put out (if scale < width then [0x30] else [])).bind fun out ↦
        if 43 < out.length + 1 + (scale - digits.length) + digits.length then some []
        else
          (put out [0x2e]).bind fun out ↦
            (put out (List.replicate (scale - digits.length) 0x30)).bind fun out ↦ put out digits
    else
      (put out (digits.take (digits.length - scale))).bind fun out ↦
        (put out [0x2e]).bind fun out ↦ put out (digits.drop (digits.length - scale))

/-- `pdo_duckdb_decimal_from_vector`. -/
def decimalFromVector (width scale : ℕ) (d : Stored) : Option (Int64 × UInt64) :=
  if Statement.decimalMetaOk width scale then
    match d with
    | .smallint v => some (if v.toInt64 < 0 then -1 else 0, v.toInt64.toUInt64)
    | .integer v => some (if v.toInt64 < 0 then -1 else 0, v.toInt64.toUInt64)
    | .bigint v => some (if v < 0 then -1 else 0, v.toUInt64)
    | .hugeint upper lower => some (upper, lower)
  else none

/-- The words of a `duckdb_hugeint`, negated where it is negative. -/
def magnitude (upper : Int64) (lower : UInt64) : UInt64 × UInt64 :=
  if upper < 0 then Nested.negated upper.toUInt64 lower else (upper.toUInt64, lower)

/-- `pdo_duckdb_decimal_to_string`; an assertion that fails has no result. -/
def decimalToString (haveInt128 : Bool) (upper : Int64) (lower : UInt64) (width scale : ℕ) :
    Option (List Byte) :=
  if Statement.decimalMetaOk width scale then
    (formatU128 haveInt128 (magnitude upper lower).1 (magnitude upper lower).2 40).bind fun digits ↦
      decimalDigitsToString digits (upper < 0) width scale
  else none

/-- `pdo_duckdb_abs_i64`. -/
def absI64 (v : Int64) : UInt64 := if v < 0 then (-(v + 1)).toUInt64 + 1 else v.toUInt64

/-- `pdo_duckdb_decimal_to_string_i64`. -/
def decimalToStringI64 (value : Int64) (width scale : ℕ) : Option (List Byte) :=
  (formatU64 (if value < 0 then absI64 value else value.toUInt64) 20).bind fun digits ↦
    decimalDigitsToString digits (value < 0) width scale

/-- `pdo_duckdb_cached_decimal_to_zval`, with the width and the scale of the cached column. -/
def cachedDecimalToZval (haveInt128 : Bool) (width scale : ℕ) : Stored → Option (List Byte)
  | .smallint v => decimalToStringI64 v.toInt64 width scale
  | .integer v => decimalToStringI64 v.toInt64 width scale
  | .bigint v => decimalToStringI64 v width scale
  | .hugeint upper lower =>
    if (magnitude upper lower).1 = 0 then
      (formatU64 (magnitude upper lower).2 20).bind fun digits ↦
        decimalDigitsToString digits (upper < 0) width scale
    else
      (formatU128 haveInt128 (magnitude upper lower).1 (magnitude upper lower).2 40).bind fun digits ↦
        decimalDigitsToString digits (upper < 0) width scale

end Routes

section Canonical

def lastDigits : ℕ → ℕ → List Byte
  | 0, _ => []
  | k + 1, n => lastDigits k (n / 10) ++ [digitByte (n % 10)]

/-- What stands before the point: no 0 where the type has no room for a digit there. -/
def integerPart (width scale n : ℕ) : List Byte :=
  if n / 10 ^ scale = 0 ∧ width = scale then [] else decimal (n / 10 ^ scale)

def fractionPart (scale n : ℕ) : List Byte := if scale = 0 then [] else 0x2e :: lastDigits scale n

/-- The text of `v / 10 ^ scale`. -/
def canonical (width scale : ℕ) (v : ℤ) : List Byte :=
  (if v < 0 then [minus] else []) ++ (integerPart width scale v.natAbs ++ fractionPart scale v.natAbs)

end Canonical

section Texts

variable {digits out s : List Byte} {neg : Bool} {width scale n k : ℕ}

theorem length_lastDigits (k n : ℕ) : (lastDigits k n).length = k := by
  induction k generalizing n with
  | zero => rfl
  | succ k ih => rw [lastDigits, List.length_append, ih, List.length_singleton]

/-- The digits of a number with more than `k` of them. -/
theorem decimal_split (h : 10 ^ k ≤ n) : decimal n = decimal (n / 10 ^ k) ++ lastDigits k n := by
  induction k generalizing n with
  | zero => rw [Nat.pow_zero, Nat.div_one, lastDigits, List.append_nil]
  | succ k ih =>
    have hten : ¬ n < 10 := by
      have hpos : 1 ≤ 10 ^ k := Nat.one_le_pow' k 9
      rw [Nat.pow_succ] at h
      omega
    have hk : 10 ^ k ≤ n / 10 := by
      rw [Nat.le_div_iff_mul_le (by decide)]
      exact h
    rw [decimal_eq, if_neg hten, ih hk, lastDigits, List.append_assoc, Nat.div_div_eq_div_mul,
      Nat.pow_succ']

/-- The digits of a number with at most `k` of them. -/
theorem lastDigits_eq (hk : 0 < k) (h : n < 10 ^ k) :
    lastDigits k n = List.replicate (k - (decimal n).length) 0x30 ++ decimal n := by
  induction k generalizing n with
  | zero => cases hk
  | succ k ih =>
    by_cases hn : n < 10
    · have hzero : ∀ k, lastDigits k 0 = List.replicate k 0x30 := by
        intro k
        induction k with
        | zero => rfl
        | succ k ih => rw [lastDigits, ih, List.replicate_succ']; rfl
      rw [lastDigits, Nat.div_eq_of_lt hn, hzero, decimal_of_lt hn, Nat.mod_eq_of_lt hn]
      rfl
    · have hpos : 0 < k := by
        rcases Nat.eq_zero_or_pos k with rfl | hpos
        · exact absurd h hn
        · exact hpos
      have hdiv : n / 10 < 10 ^ k := by
        rw [Nat.div_lt_iff_lt_mul (by decide)]
        exact h
      have hlen : (decimal n).length = (decimal (n / 10)).length + 1 := by
        rw [decimal_eq, if_neg hn, List.length_append, List.length_singleton]
      rw [lastDigits, ih hpos hdiv, List.append_assoc, hlen, Nat.add_sub_add_right, decimal_eq n, if_neg hn]

theorem length_decimal_le_iff (hk : 0 < k) : (decimal n).length ≤ k ↔ n < 10 ^ k := by
  rw [decimal, List.length_map]
  exact Nat.length_toDigits_le_iff (by decide) hk

theorem put_eq (h : out.length + s.length ≤ 43) : put out s = some (out ++ s) := if_pos h

/-- The buffer is never too small. -/
theorem decimalDigitsToString_eq (hmeta : Statement.decimalMetaOk width scale) (hdigits : digits.length ≤ 39) :
    decimalDigitsToString digits neg width scale =
      some (Nested.decimalDigitsToString digits neg width scale) := by
  simp only [Statement.decimalMetaOk, Bool.and_eq_true, decide_eq_true_eq] at hmeta
  unfold decimalDigitsToString Nested.decimalDigitsToString
  have hsign : (if neg then [minus] else []).length ≤ 1 := by cases neg <;> decide
  have hlead : (if scale < width then [(0x30 : Byte)] else []).length ≤ 1 := by split_ifs <;> decide
  generalize (if neg then [minus] else []) = sign at hsign ⊢
  generalize (if scale < width then [(0x30 : Byte)] else []) = lead at hlead ⊢
  rw [put_eq (show [].length + sign.length ≤ 43 by simp; omega), Option.bind_some, List.nil_append]
  dsimp only
  split_ifs with hscale hshort hover
  · exact put_eq (by omega)
  · rw [put_eq (by omega), Option.bind_some, if_pos hover]
  · rw [put_eq (by omega), Option.bind_some, if_neg hover]
    rw [put_eq (by simp at hover ⊢; omega), Option.bind_some]
    rw [put_eq (by simp at hover ⊢; omega), Option.bind_some, put_eq (by simp at hover ⊢; omega)]
    simp
  · rw [put_eq (by simp; omega), Option.bind_some]
    rw [put_eq (by simp; omega), Option.bind_some, put_eq (by simp; omega)]
    simp

/-- A text of digits is canonical; the empty text is never taken. -/
theorem decimalDigitsToString_canonical (hmeta : Statement.decimalMetaOk width scale) (n : ℕ) :
    Nested.decimalDigitsToString (decimal n) neg width scale =
      (if neg then [minus] else []) ++ (integerPart width scale n ++ fractionPart scale n) := by
  simp only [Statement.decimalMetaOk, Bool.and_eq_true, decide_eq_true_eq] at hmeta
  unfold Nested.decimalDigitsToString integerPart fractionPart
  dsimp only
  by_cases hscale : scale = 0
  · subst hscale
    have hwidth : ¬ (n = 0 ∧ width = 0) := by omega
    rw [if_pos rfl, if_pos rfl, Nat.pow_zero, Nat.div_one, if_neg hwidth, List.append_nil]
  · rw [if_neg hscale, if_neg hscale]
    by_cases hshort : n < 10 ^ scale
    · have hlen := (length_decimal_le_iff (Nat.pos_of_ne_zero hscale)).mpr hshort
      have hsign : (if neg then [minus] else []).length ≤ 1 := by cases neg <;> decide
      have hlead : (if scale < width then [(0x30 : Byte)] else []).length ≤ 1 := by split_ifs <;> decide
      have hfits : ¬ 43 < ((if neg then [minus] else []) ++ if scale < width then [(0x30 : Byte)] else []).length +
          1 + (scale - (decimal n).length) + (decimal n).length := by
        rw [List.length_append]
        omega
      rw [if_pos hlen, if_neg hfits, Nat.div_eq_of_lt hshort,
        lastDigits_eq (Nat.pos_of_ne_zero hscale) hshort, List.append_assoc]
      by_cases hroom : scale < width
      · have hne : ¬ (0 = 0 ∧ width = scale) := by omega
        rw [if_pos hroom, if_neg hne]
        rfl
      · have heq : 0 = 0 ∧ width = scale := by omega
        rw [if_neg hroom, if_pos heq]
    · have hle := Nat.le_of_not_lt hshort
      have hlen : (decimal n).length - scale = (decimal (n / 10 ^ scale)).length := by
        rw [decimal_split hle, List.length_append, length_lastDigits, Nat.add_sub_cancel]
      have hdiv : ¬ (n / 10 ^ scale = 0 ∧ width = scale) := fun h ↦
        absurd ((Nat.div_eq_zero_iff_lt (Nat.pow_pos (by decide))).mp h.1) hshort
      rw [if_neg (mt (length_decimal_le_iff (Nat.pos_of_ne_zero hscale)).mp hshort), if_neg hdiv, hlen,
        decimal_split hle, List.take_left, List.drop_left]

end Texts

section Magnitudes

variable {v : Int64} {upper : Int64} {lower : UInt64}

theorem toNat_toUInt64 (v : Int64) : (v.toUInt64.toNat : ℤ) = v.toInt % 0x10000000000000000 := by
  have hlt := v.toUInt64.toNat_lt
  have hint : v.toInt = (v.toUInt64.toNat : ℤ).bmod (2 ^ 64) := BitVec.toInt_eq_toNat_bmod _
  rw [hint, Int.bmod_def]
  omega

theorem toUInt64_nonneg (hv : ¬ v < 0) : v.toUInt64.toNat = v.toInt.natAbs := by
  rw [Int64.lt_iff_toInt_lt, Int64.toInt_zero] at hv
  have hword := toNat_toUInt64 v
  have hlt := v.toInt_lt
  omega

theorem absI64_eq (hv : v < 0) : (absI64 v).toNat = v.toInt.natAbs := by
  unfold absI64
  rw [if_pos hv]
  rw [Int64.lt_iff_toInt_lt, Int64.toInt_zero] at hv
  have hle := v.le_toInt
  have hsucc : (v + 1).toInt = v.toInt + 1 := by
    rw [Int64.toInt_add, Int64.toInt_one]
    exact Int.bmod_eq_of_le (by omega) (by omega)
  have hneg : (-(v + 1)).toInt = -(v.toInt + 1) := by
    rw [Int64.toInt_neg, hsucc]
    exact Int.bmod_eq_of_le (by omega) (by omega)
  have hword := toNat_toUInt64 (-(v + 1))
  rw [hneg] at hword
  rw [UInt64.toNat_add]
  show ((-(v + 1)).toUInt64.toNat + 1) % 2 ^ 64 = _
  omega

/-- The two's complement of two words, of which not both are 0. -/
theorem wide_negated {u l : UInt64} (hu : u ≠ 0) :
    wide (Nested.negated u l).1 (Nested.negated u l).2 + wide u l = 0x100000000000000000000000000000000 := by
  have hu' : u.toNat ≠ 0 := fun h ↦ hu (UInt64.toNat_inj.mp h)
  have hult := u.toNat_lt
  have hllt := l.toNat_lt
  have hlow : (~~~l + 1).toNat = (0xffffffffffffffff - l.toNat + 1) % 0x10000000000000000 := by
    rw [UInt64.toNat_add, UInt64.toNat_not]
    rfl
  have hzero : ~~~l + 1 = 0 ↔ l.toNat = 0 := by
    rw [← UInt64.toNat_inj, hlow]
    show _ = 0 ↔ _
    omega
  unfold Nested.negated wide
  dsimp only
  rw [hlow, UInt64.toNat_add, UInt64.toNat_not]
  by_cases hl : l.toNat = 0
  · rw [if_pos (hzero.mpr hl)]
    show (2 ^ 64 - 1 - u.toNat + 1) % 2 ^ 64 * _ + _ + _ = _
    omega
  · rw [if_neg (mt hzero.mp hl)]
    show (2 ^ 64 - 1 - u.toNat + 0) % 2 ^ 64 * _ + _ + _ = _
    omega

theorem wide_magnitude (upper : Int64) (lower : UInt64) :
    wide (magnitude upper lower).1 (magnitude upper lower).2 = (Stored.hugeint upper lower).value.natAbs := by
  have hword := toNat_toUInt64 upper
  have hlower := lower.toNat_lt
  have hupper := upper.toInt_lt
  have hle := upper.le_toInt
  unfold magnitude wide Stored.value
  dsimp only
  by_cases hneg : upper < 0
  · rw [if_pos hneg]
    rw [Int64.lt_iff_toInt_lt, Int64.toInt_zero] at hneg
    have hne : upper.toUInt64 ≠ 0 := fun h ↦ by
      rw [h] at hword
      change (0 : ℤ) = _ at hword
      omega
    have hcomplement := wide_negated (l := lower) hne
    have hu : (upper.toUInt64.toNat : ℤ) = upper.toInt + 0x10000000000000000 := by omega
    unfold wide at hcomplement
    generalize Nested.negated upper.toUInt64 lower = m at hcomplement ⊢
    zify at hcomplement
    rw [hu] at hcomplement
    omega
  · have hword := toUInt64_nonneg hneg
    rw [if_neg hneg]
    rw [Int64.lt_iff_toInt_lt, Int64.toInt_zero] at hneg
    dsimp only
    omega

theorem isNegative_toUInt64 (upper : Int64) : Nested.isNegative upper.toUInt64 = decide (upper < 0) := by
  have hword := toNat_toUInt64 upper
  have hlt := upper.toInt_lt
  have hle := upper.le_toInt
  unfold Nested.isNegative
  rw [decide_eq_decide, UInt64.le_iff_toNat_le, Int64.lt_iff_toInt_lt, Int64.toInt_zero]
  show 0x8000000000000000 ≤ _ ↔ _
  omega

end Magnitudes

section Nested

variable {width scale room : ℕ}

theorem length_formatU128 (upper lower : UInt64) : (Nested.formatU128 upper lower).length ≤ 39 :=
  length_decimal_le (by decide) (Nat.lt_trans (wide_lt upper lower) (by decide))

/-- The text that the nested renderer takes for two words is the one in the buffer. -/
theorem formatU128_nested (haveInt128 : Bool) (upper lower : UInt64) (hroom : 39 ≤ room) :
    formatU128 haveInt128 upper lower room = some (Nested.formatU128 upper lower) :=
  formatU128_eq haveInt128 upper lower hroom

theorem decimalToString_nested (hmeta : Statement.decimalMetaOk width scale) (haveInt128 : Bool) (upper : Int64)
    (lower : UInt64) : decimalToString haveInt128 upper lower width scale =
      some (Nested.decimalToString upper.toUInt64 lower width scale) := by
  unfold decimalToString magnitude Nested.decimalToString
  rw [if_pos hmeta, formatU128_nested haveInt128 _ _ (by decide), Option.bind_some,
    decimalDigitsToString_eq hmeta (length_formatU128 _ _), isNegative_toUInt64]
  by_cases hneg : upper < 0
  · simp [hneg]
  · simp [hneg]

end Nested

section Texts

variable {width scale m n : ℕ} {v v' : ℤ}

/-- Every route from digits to text ends in the canonical text. -/
theorem digits_canonical (hmeta : Statement.decimalMetaOk width scale) {neg : Bool} (hneg : neg = decide (v < 0))
    (hn : n = v.natAbs) (hlt : n < 2 ^ 128) :
    decimalDigitsToString (decimal n) neg width scale = some (canonical width scale v) := by
  have hlen : (decimal n).length ≤ 39 := length_decimal_le (by decide) (Nat.lt_trans hlt (by decide))
  rw [decimalDigitsToString_eq hmeta hlen, decimalDigitsToString_canonical hmeta, hn, hneg]
  simp [canonical]

theorem decimalToStringI64_eq (hmeta : Statement.decimalMetaOk width scale) (v : Int64) :
    decimalToStringI64 v width scale = some (canonical width scale v.toInt) := by
  have hmagnitude : (if v < 0 then absI64 v else v.toUInt64).toNat = v.toInt.natAbs := by
    split_ifs with hneg
    · exact absI64_eq hneg
    · exact toUInt64_nonneg hneg
  have hlt := v.toInt_lt
  have hle := v.le_toInt
  unfold decimalToStringI64
  rw [formatU64_eq _ le_rfl, Option.bind_some, hmagnitude]
  exact digits_canonical hmeta (by simp [Int64.lt_iff_toInt_lt]) rfl (by omega)

theorem hugeint_canonical (hmeta : Statement.decimalMetaOk width scale) (upper : Int64) (lower : UInt64) :
    decimalDigitsToString (decimal (wide (magnitude upper lower).1 (magnitude upper lower).2)) (upper < 0) width
      scale = some (canonical width scale (Stored.hugeint upper lower).value) := by
  refine digits_canonical hmeta ?_ (wide_magnitude upper lower) (wide_lt _ _)
  have hl := lower.toNat_lt
  rw [decide_eq_decide, Int64.lt_iff_toInt_lt, Int64.toInt_zero]
  show _ ↔ upper.toInt * 0x10000000000000000 + lower.toNat < 0
  omega

theorem decimalToString_eq (hmeta : Statement.decimalMetaOk width scale) (haveInt128 : Bool) (upper : Int64)
    (lower : UInt64) : decimalToString haveInt128 upper lower width scale =
      some (canonical width scale (Stored.hugeint upper lower).value) := by
  unfold decimalToString
  rw [if_pos hmeta, formatU128_eq haveInt128 _ _ (by decide), Option.bind_some]
  exact hugeint_canonical hmeta upper lower

/-- A word that is extended by its sign. -/
theorem signExtended_value (v : Int64) :
    (Stored.hugeint (if v < 0 then -1 else 0) v.toUInt64).value = v.toInt := by
  have hword := toNat_toUInt64 v
  have hlt := v.toInt_lt
  have hle := v.le_toInt
  unfold Stored.value
  dsimp only
  by_cases hneg : v < 0
  · rw [if_pos hneg]
    rw [Int64.lt_iff_toInt_lt, Int64.toInt_zero] at hneg
    show (-1) * 0x10000000000000000 + _ = _
    omega
  · rw [if_neg hneg]
    rw [Int64.lt_iff_toInt_lt, Int64.toInt_zero] at hneg
    show 0 * 0x10000000000000000 + _ = _
    omega

theorem generic_eq (hmeta : Statement.decimalMetaOk width scale) (haveInt128 : Bool) (d : Stored) :
    (decimalFromVector width scale d).bind (fun h ↦ decimalToString haveInt128 h.1 h.2 width scale) =
      some (canonical width scale d.value) := by
  unfold decimalFromVector
  rw [if_pos hmeta]
  cases d with
  | smallint v =>
    refine (decimalToString_eq hmeta haveInt128 _ _).trans ?_
    rw [signExtended_value, Int16.toInt_toInt64]
    rfl
  | integer v =>
    refine (decimalToString_eq hmeta haveInt128 _ _).trans ?_
    rw [signExtended_value, Int32.toInt_toInt64]
    rfl
  | bigint v =>
    refine (decimalToString_eq hmeta haveInt128 _ _).trans ?_
    rw [signExtended_value]
    rfl
  | hugeint upper lower => exact decimalToString_eq hmeta haveInt128 upper lower

theorem cachedDecimalToZval_eq (hmeta : Statement.decimalMetaOk width scale) (haveInt128 : Bool) (d : Stored) :
    cachedDecimalToZval haveInt128 width scale d = some (canonical width scale d.value) := by
  cases d with
  | smallint v =>
    refine (decimalToStringI64_eq hmeta v.toInt64).trans ?_
    rw [Int16.toInt_toInt64]
    rfl
  | integer v =>
    refine (decimalToStringI64_eq hmeta v.toInt64).trans ?_
    rw [Int32.toInt_toInt64]
    rfl
  | bigint v => exact decimalToStringI64_eq hmeta v
  | hugeint upper lower =>
    have hcanonical := hugeint_canonical hmeta upper lower
    rw [cachedDecimalToZval]
    by_cases hupper : (magnitude upper lower).1 = 0
    · have hwide : wide (magnitude upper lower).1 (magnitude upper lower).2 = (magnitude upper lower).2.toNat := by
        unfold wide
        rw [hupper, UInt64.toNat_zero, Nat.zero_mul, Nat.zero_add]
      rw [if_pos hupper, formatU64_eq _ le_rfl, Option.bind_some, ← hwide]
      exact hcanonical
    · rw [if_neg hupper, formatU128_eq haveInt128 _ _ (by decide), Option.bind_some]
      exact hcanonical

end Texts

section Readings

variable {width scale m n k : ℕ} {v v' : ℤ}

theorem digitByte_inj (h : digitByte (m % 10) = digitByte (n % 10)) : m % 10 = n % 10 := by
  have hm := Nat.mod_lt m (show 0 < 10 by decide)
  have hn := Nat.mod_lt n (show 0 < 10 by decide)
  generalize m % 10 = a at h hm ⊢
  generalize n % 10 = b at h hn ⊢
  have hdecimal : decimal a = decimal b := by rw [decimal_of_lt hm, decimal_of_lt hn, h]
  exact decimal_injective hdecimal

theorem lastDigits_inj (h : lastDigits k m = lastDigits k n) : m % 10 ^ k = n % 10 ^ k := by
  induction k generalizing m n with
  | zero => rw [Nat.pow_zero, Nat.mod_one, Nat.mod_one]
  | succ k ih =>
    obtain ⟨hinit, hlast⟩ := List.append_inj' h rfl
    rw [Nat.pow_succ', Nat.mod_mul, Nat.mod_mul, ih hinit, digitByte_inj (List.cons.inj hlast).1]

theorem integerPart_inj (h : integerPart width scale m = integerPart width scale n) :
    m / 10 ^ scale = n / 10 ^ scale := by
  unfold integerPart at h
  split_ifs at h with hm hn hn
  · rw [hm.1, hn.1]
  · exact absurd h.symm (decimal_ne_nil _)
  · exact absurd h (decimal_ne_nil _)
  · exact decimal_injective h

theorem length_fractionPart (scale m n : ℕ) : (fractionPart scale m).length = (fractionPart scale n).length := by
  unfold fractionPart
  split_ifs
  · rfl
  · rw [List.length_cons, List.length_cons, length_lastDigits, length_lastDigits]

theorem fractionPart_inj (h : fractionPart scale m = fractionPart scale n) :
    m % 10 ^ scale = n % 10 ^ scale := by
  unfold fractionPart at h
  split_ifs at h with hscale
  · rw [hscale, Nat.pow_zero, Nat.mod_one, Nat.mod_one]
  · exact lastDigits_inj (List.cons.inj h).2

theorem minus_notMem_lastDigits (k n : ℕ) : minus ∉ lastDigits k n := by
  induction k generalizing n with
  | zero => exact List.not_mem_nil
  | succ k ih =>
    rw [lastDigits, List.mem_append, List.mem_singleton]
    rintro (h | h)
    · exact ih _ h
    · have hmem : minus ∈ decimal (n % 10) := by
        rw [decimal_of_lt (Nat.mod_lt n (by decide)), h]
        exact List.mem_singleton_self _
      exact minus_notMem_decimal _ hmem

theorem minus_notMem_parts (width scale n : ℕ) :
    minus ∉ integerPart width scale n ++ fractionPart scale n := by
  unfold integerPart fractionPart
  rw [List.mem_append]
  rintro (h | h)
  · split_ifs at h
    · cases h
    · exact minus_notMem_decimal _ h
  · split_ifs at h
    · cases h
    · rcases List.mem_cons.mp h with h | h
      · exact absurd h (by decide)
      · exact minus_notMem_lastDigits _ _ h

theorem parts_inj (h : integerPart width scale m ++ fractionPart scale m =
    integerPart width scale n ++ fractionPart scale n) : m = n := by
  obtain ⟨hinteger, hfraction⟩ := List.append_inj' h (length_fractionPart scale m n)
  rw [← Nat.div_add_mod m (10 ^ scale), integerPart_inj hinteger, fractionPart_inj hfraction, Nat.div_add_mod]

/-- The text of a width and a scale determines the value. -/
theorem canonical_injective (width scale : ℕ) : Function.Injective (canonical width scale) := by
  intro v v' h
  unfold canonical at h
  split_ifs at h with hv hv' hv'
  · have habs := parts_inj (List.cons.inj h).2
    omega
  · exact absurd (h ▸ List.mem_cons_self) (minus_notMem_parts width scale v'.natAbs)
  · exact absurd (h ▸ List.mem_cons_self) (minus_notMem_parts width scale v.natAbs)
  · have habs := parts_inj h
    omega

end Readings

/-- The routes of a DECIMAL write the same text, the canonical one, within their
buffers; and the text determines the value. -/
theorem decimal_routes (haveInt128 : Bool) (d : Stored) {width scale : ℕ}
    (hmeta : Statement.decimalMetaOk width scale) :
    cachedDecimalToZval haveInt128 width scale d = some (canonical width scale d.value) ∧
    (decimalFromVector width scale d).bind (fun h ↦ decimalToString haveInt128 h.1 h.2 width scale) =
      some (canonical width scale d.value) ∧
    (∀ v : Int64, v.toInt = d.value →
      decimalToStringI64 v width scale = some (canonical width scale d.value)) ∧
    canonical width scale d.value ≠ [] ∧
    (d.value.natAbs < 10 ^ scale →
      integerPart width scale d.value.natAbs = if scale < width then [0x30] else []) ∧
    ∀ v, canonical width scale v = canonical width scale d.value → v = d.value := by
  have hwidth := hmeta
  simp only [Statement.decimalMetaOk, Bool.and_eq_true, decide_eq_true_eq] at hwidth
  refine ⟨cachedDecimalToZval_eq hmeta haveInt128 d, generic_eq hmeta haveInt128 d, fun v hv ↦ ?_, ?_,
    fun hlt ↦ ?_, fun v h ↦ canonical_injective width scale h⟩
  · rw [← hv]
    exact decimalToStringI64_eq hmeta v
  · unfold canonical integerPart fractionPart
    intro h
    have hparts := (List.append_eq_nil_iff.mp (List.append_eq_nil_iff.mp h).2)
    split_ifs at hparts with hinteger hscale
    · omega
    · exact absurd hparts.2 (by simp)
    · exact absurd hparts.1 (decimal_ne_nil _)
    · exact absurd hparts.1 (decimal_ne_nil _)
  · unfold integerPart
    rw [Nat.div_eq_of_lt hlt]
    by_cases hroom : scale < width
    · have hne : ¬ (0 = 0 ∧ width = scale) := by omega
      rw [if_neg hne, if_pos hroom]
      rfl
    · have heq : 0 = 0 ∧ width = scale := by omega
      rw [if_pos heq, if_neg hroom]

theorem decimal_routes_minimum :
    cachedDecimalToZval false 38 38 (.hugeint Int64.minValue 0) =
      some (ascii "-1.70141183460469231731687303715884105728") := by
  have hmeta : Statement.decimalMetaOk 38 38 := by decide
  have hroutes := decimal_routes false (.hugeint Int64.minValue 0) hmeta
  rw [hroutes.1]
  decide

end PdoDuckdb.Decimals
