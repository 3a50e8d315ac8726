import PdoDuckdb.Numerals
import PdoDuckdb.Nested.Quoting
import PdoDuckdb.Nested.Vectors
import Mathlib.Data.List.DropRight

namespace PdoDuckdb.Nested

open Byte

/-- `duckdb_date_struct`. -/
structure DateStruct where
  year : Int32
  month : Int8
  day : Int8
deriving DecidableEq, Repr

/-- `duckdb_time_struct`. -/
structure TimeStruct where
  hour : Int8
  min : Int8
  sec : Int8
  micros : Int32
deriving DecidableEq, Repr

/-- What the engine tells of dates and times, and its text of a float or a double. -/
structure Engine where
  isFiniteDate : ℤ → Bool
  fromDate : ℤ → DateStruct
  toDate : DateStruct → ℤ
  isFiniteTimestamp : ℤ → Bool
  fromTimestamp : ℤ → DateStruct × TimeStruct
  fromTime : ℤ → TimeStruct
  floatText : UInt32 → Option (List Byte)
  doubleText : UInt64 → Option (List Byte)

section Numbers

/-- `pdo_duckdb_format_u128`. -/
def formatU128 (upper lower : UInt64) : List Byte :=
  decimal (upper.toNat * 2 ^ 64 + lower.toNat)

/-- `pdo_duckdb_smart_append_u64`. -/
def smartAppendU64 (n : ℕ) : List Byte := decimal n

/-- `pdo_duckdb_smart_append_i64`. -/
def smartAppendI64 (n : ℤ) : List Byte :=
  if n < 0 then minus :: smartAppendU64 n.natAbs else smartAppendU64 n.toNat

def isNegative (upper : UInt64) : Bool := 0x8000000000000000 ≤ upper

/-- The two's complement of a `duckdb_hugeint`. -/
def negated (upper lower : UInt64) : UInt64 × UInt64 :=
  (~~~upper + if ~~~lower + 1 = 0 then 1 else 0, ~~~lower + 1)

/-- `pdo_duckdb_hugeint_to_string`. -/
def hugeintToString (upper lower : UInt64) : List Byte :=
  if isNegative upper then minus :: formatU128 (negated upper lower).1 (negated upper lower).2
  else formatU128 upper lower

/-- `pdo_duckdb_decimal_from_vector`, without the width and the scale. -/
def decimalFromVector (width scale : ℕ) : DecimalStorage → Datum → Option (UInt64 × UInt64)
  | .hugeint, .huge upper lower =>
    if Statement.decimalMetaOk width scale then some (upper, lower) else none
  | .smallint, .signed n | .integer, .signed n | .bigint, .signed n =>
    if Statement.decimalMetaOk width scale then
      some (if n < 0 then 0xffffffffffffffff else 0, UInt64.ofInt n)
    else none
  | _, _ => none

/-- `pdo_duckdb_decimal_digits_to_string`; its buffer has 43 bytes. -/
def decimalDigitsToString (digits : List Byte) (neg : Bool) (width scale : ℕ) : List Byte :=
  let sign := if neg then [minus] else []
  if scale = 0 then sign ++ digits
  else if digits.length ≤ scale then
    let lead := sign ++ if scale < width then [0x30] else []
    if 43 < lead.length + 1 + (scale - digits.length) + digits.length then []
    else lead ++ 0x2e :: (List.replicate (scale - digits.length) 0x30 ++ digits)
  else
    sign ++ (digits.take (digits.length - scale) ++ 0x2e :: digits.drop (digits.length - scale))

/-- `pdo_duckdb_decimal_to_string`. -/
def decimalToString (upper lower : UInt64) (width scale : ℕ) : List Byte :=
  if isNegative upper then
    decimalDigitsToString (formatU128 (negated upper lower).1 (negated upper lower).2) true width scale
  else decimalDigitsToString (formatU128 upper lower) false width scale

end Numbers

section Temporal

/-- `%0*d` of `printf`. -/
def padded (width : ℕ) (n : ℤ) : List Byte :=
  if n < 0 then minus :: (decimal n.natAbs).leftpad (width - 1) 0x30
  else (decimal n.natAbs).leftpad width 0x30

/-- `pdo_duckdb_append_fraction`. -/
def appendFraction (fraction : ℤ) (width : ℕ) : List Byte :=
  if fraction = 0 then []
  else 0x2e :: ((padded width fraction).take width).rdropWhile (· == 0x30)

/-- `%04d-%02d-%02d` of a date. -/
def dateText (ds : DateStruct) : List Byte :=
  padded 4 ds.year.toInt ++ minus :: (padded 2 ds.month.toInt ++ minus :: padded 2 ds.day.toInt)

/-- `pdo_duckdb_format_date_part`; its buffer has 32 bytes. -/
def formatDatePart (engine : Engine) (date : ℤ) : Option (List Byte) :=
  if ¬ engine.isFiniteDate date then none
  else if (engine.fromDate date).year ≤ 0 then none
  else if 32 ≤ (dateText (engine.fromDate date)).length then none
  else some (dateText (engine.fromDate date))

/-- `pdo_duckdb_format_time_part`. -/
def formatTimePart (ts : TimeStruct) : List Byte :=
  padded 2 ts.hour.toInt ++ colon :: (padded 2 ts.min.toInt ++ colon :: padded 2 ts.sec.toInt) ++
    appendFraction ts.micros.toInt 6

end Temporal

def hexDigits (width n : ℕ) : List Byte :=
  (List.range width).map fun i ↦ hexDigit (n / 16 ^ (width - 1 - i) % 16)

/-- The text of a UUID, whose first bit is stored flipped. -/
def uuidText (upper lower : UInt64) : List Byte :=
  let upper := upper ^^^ 0x8000000000000000
  hexDigits 8 (upper >>> 32).toNat ++ minus :: (hexDigits 4 (upper >>> 16).toNat ++
    minus :: (hexDigits 4 upper.toNat ++ minus :: (hexDigits 4 (lower >>> 48).toNat ++
      minus :: hexDigits 12 lower.toNat)))

/-- `pdo_duckdb_fast_col_to_string`, for the types that the nested renderer gives it. -/
def fastColToString (engine : Engine) : ScalarType → Datum → Option (List Byte)
  | .ubigint, .unsigned n => some (decimal n)
  | .hugeint, .huge upper lower => some (hugeintToString upper lower)
  | .uhugeint, .huge upper lower => some (formatU128 upper lower)
  | .decimal width scale internal, d =>
    (decimalFromVector width scale internal d).map fun (upper, lower) ↦
      decimalToString upper lower width scale
  | .date, .signed n => formatDatePart engine n
  | .time, .signed n => some (formatTimePart (engine.fromTime n))
  | .timestamp, .signed n =>
    if ¬ engine.isFiniteTimestamp n then none
    else (formatDatePart engine (engine.toDate (engine.fromTimestamp n).1)).map fun date ↦
      date ++ space :: formatTimePart (engine.fromTimestamp n).2
  | .uuid, .huge upper lower => some (uuidText upper lower)
  | _, _ => none

/-- `pdo_duckdb_smart_append_fast_scalar`. -/
def smartAppendFastScalar (v2 : Bool) (engine : Engine) (escapeVarchar : Bool) :
    ScalarType → Datum → Option (List Byte)
  | .sqlNull, _ => some (ascii "NULL")
  | .boolean, .bool b => some (if b then ascii "true" else ascii "false")
  | .tinyint, .signed n | .smallint, .signed n | .integer, .signed n | .bigint, .signed n =>
    some (smartAppendI64 n)
  | .utinyint, .unsigned n | .usmallint, .unsigned n | .uinteger, .unsigned n =>
    some (smartAppendU64 n)
  | .varchar, .bytes s => some (if escapeVarchar then escapedVarchar v2 s else s)
  | .float, .float bits => engine.floatText bits
  | .double, .double bits => engine.doubleText bits
  | type, d => (fastColToString engine type d).map fun text ↦
      if escapeVarchar ∧ (type = .date ∨ type = .timestamp ∨ type = .time) then escapedVarchar v2 text
      else text

section Dates

theorem length_padded_le (width : ℕ) {n : ℤ} {k : ℕ} (hk : 0 < k) (h : n.natAbs < 10 ^ k) :
    (padded width n).length ≤ max width k + 1 := by
  have hlength := length_decimal_le hk h
  unfold padded
  split
  · simp only [List.length_cons, List.leftpad, List.length_append, List.length_replicate]
    omega
  · simp only [List.leftpad, List.length_append, List.length_replicate]
    omega

theorem length_dateText_lt (ds : DateStruct) : (dateText ds).length < 32 := by
  have hyear : (padded 4 ds.year.toInt).length ≤ 11 := by
    apply length_padded_le 4 (by decide : 0 < 10)
    have := ds.year.toInt_lt
    have := ds.year.le_toInt
    omega
  have hmonth : (padded 2 ds.month.toInt).length ≤ 4 := by
    apply length_padded_le 2 (by decide : 0 < 3)
    have := ds.month.toInt_lt
    have := ds.month.le_toInt
    omega
  have hday : (padded 2 ds.day.toInt).length ≤ 4 := by
    apply length_padded_le 2 (by decide : 0 < 3)
    have := ds.day.toInt_lt
    have := ds.day.le_toInt
    omega
  simp only [dateText, List.length_append, List.length_cons]
  omega

def Engine.printsDate (engine : Engine) (date : ℤ) : Bool :=
  engine.isFiniteDate date && 0 < (engine.fromDate date).year

theorem formatDatePart_eq (engine : Engine) (date : ℤ) :
    formatDatePart engine date =
      if engine.printsDate date then some (dateText (engine.fromDate date)) else none := by
  have hlength := length_dateText_lt (engine.fromDate date)
  unfold formatDatePart Engine.printsDate
  by_cases hfinite : engine.isFiniteDate date
  · by_cases hyear : (engine.fromDate date).year ≤ 0
    · rw [if_neg (not_not_intro hfinite), if_pos hyear, if_neg]
      simpa [hfinite] using hyear
    · rw [if_neg (not_not_intro hfinite), if_neg hyear, if_neg (by omega), if_pos]
      simpa [hfinite] using hyear
  · simp [hfinite]

end Dates

section Text

def isNumeralByte (c : Byte) : Bool :=
  isDigit c || c == minus || c == 0x2b || c == 0x2e || c == 0x61 || c == 0x65 || c == 0x66 ||
    c == 0x69 || c == 0x6e

def IsNumeral (s : List Byte) : Prop := s ≠ [] ∧ ∀ c ∈ s, isNumeralByte c

def Engine.PrintsNumerals (engine : Engine) : Prop :=
  (∀ bits, ∀ s ∈ engine.floatText bits, IsNumeral s) ∧
    ∀ bits, ∀ s ∈ engine.doubleText bits, IsNumeral s

def ScalarType.isFloating (type : ScalarType) : Bool := type = .float || type = .double

theorem isNumeralByte_of_isDigit {c : Byte} (h : isDigit c) : isNumeralByte c := by
  simp [isNumeralByte, h]

theorem isNumeralByte_bare : ∀ c : Byte, isNumeralByte c → isBare c ∧ c ≠ 0x75 ∧ c ≠ 0x55 :=
  forall_byte (by decide)

theorem quoteNested_numeral (v2 : Bool) {s : List Byte} (h : IsNumeral s) : quoteNested v2 s = s := by
  apply quoteNested_bare v2 h.1
  · exact fun c hc ↦ (isNumeralByte_bare c (h.2 c hc)).1
  · intro hnull
    unfold isNullWord at hnull
    split at hnull
    · next n u l m =>
      have hu := isNumeralByte_bare u (h.2 u (by simp))
      simp only [Bool.and_eq_true, Bool.or_eq_true, beq_iff_eq] at hnull
      rcases hnull.1.1.2 with rfl | rfl
      · exact hu.2.1 rfl
      · exact hu.2.2 rfl
    · cases hnull

theorem isNumeral_decimal (n : ℕ) : IsNumeral (decimal n) :=
  ⟨decimal_ne_nil n, fun _ hc ↦ isNumeralByte_of_isDigit (isDigit_of_mem_decimal hc)⟩

theorem IsNumeral.minus {s : List Byte} (h : IsNumeral s) : IsNumeral (minus :: s) := by
  refine ⟨List.cons_ne_nil _ _, fun c hc ↦ ?_⟩
  rcases List.mem_cons.mp hc with rfl | hc
  · rfl
  · exact h.2 c hc

theorem isNumeral_formatU128 (upper lower : UInt64) : IsNumeral (formatU128 upper lower) :=
  isNumeral_decimal _

theorem isNumeral_smartAppendI64 (n : ℤ) : IsNumeral (smartAppendI64 n) := by
  unfold smartAppendI64
  split
  · exact (isNumeral_decimal n.natAbs).minus
  · exact isNumeral_decimal n.toNat

theorem isNumeral_hugeintToString (upper lower : UInt64) :
    IsNumeral (hugeintToString upper lower) := by
  unfold hugeintToString
  split
  · exact (isNumeral_formatU128 _ _).minus
  · exact isNumeral_formatU128 upper lower

/-- The buffer of the source is never too small for a decimal of a valid width and scale. -/
theorem isNumeral_decimalDigitsToString {digits : List Byte} (neg : Bool) {width scale : ℕ}
    (hdigits : IsNumeral digits) (hmeta : Statement.decimalMetaOk width scale) :
    IsNumeral (decimalDigitsToString digits neg width scale) := by
  have hscale : scale ≤ 38 := by
    simp only [Statement.decimalMetaOk, Bool.and_eq_true, decide_eq_true_eq] at hmeta
    omega
  have hsign : ∀ c ∈ (if neg then [minus] else []), isNumeralByte c := by
    cases neg <;> simp [isNumeralByte]
  have hlead : ∀ c ∈ (if scale < width then [(0x30 : Byte)] else []), isNumeralByte c := by
    split <;> simp [isNumeralByte, isDigit]
  have hlength : (if neg then [minus] else []).length ≤ 1 := by cases neg <;> simp
  have hlength' : (if scale < width then [(0x30 : Byte)] else []).length ≤ 1 := by split <;> simp
  unfold decimalDigitsToString
  simp only
  generalize (if neg then [minus] else []) = sign at *
  generalize (if scale < width then [(0x30 : Byte)] else []) = lead at *
  split
  · refine ⟨by simp [hdigits.1], fun c hc ↦ ?_⟩
    rcases List.mem_append.mp hc with hc | hc
    · exact hsign c hc
    · exact hdigits.2 c hc
  · split
    · rw [if_neg (by simp only [List.length_append]; omega)]
      refine ⟨by simp, fun c hc ↦ ?_⟩
      simp only [List.mem_append, List.mem_cons, List.mem_replicate] at hc
      rcases hc with (hc | hc) | rfl | ⟨-, rfl⟩ | hc
      · exact hsign c hc
      · exact hlead c hc
      · rfl
      · rfl
      · exact hdigits.2 c hc
    · refine ⟨by simp, fun c hc ↦ ?_⟩
      simp only [List.mem_append, List.mem_cons] at hc
      rcases hc with hc | hc | rfl | hc
      · exact hsign c hc
      · exact hdigits.2 c (List.mem_of_mem_take hc)
      · rfl
      · exact hdigits.2 c (List.mem_of_mem_drop hc)

theorem isNumeral_decimalToString (upper lower : UInt64) {width scale : ℕ}
    (hmeta : Statement.decimalMetaOk width scale) :
    IsNumeral (decimalToString upper lower width scale) := by
  unfold decimalToString
  split
  · exact isNumeral_decimalDigitsToString true (isNumeral_formatU128 _ _) hmeta
  · exact isNumeral_decimalDigitsToString false (isNumeral_formatU128 upper lower) hmeta

theorem isBare_hexDigit (d : ℕ) (h : d < 16) : isBare (hexDigit d) := by
  revert d
  decide

theorem isBare_of_mem_hexDigits {width n : ℕ} {c : Byte} (h : c ∈ hexDigits width n) : isBare c := by
  obtain ⟨i, -, rfl⟩ := List.mem_map.mp h
  exact isBare_hexDigit _ (Nat.mod_lt _ (by decide))

theorem length_hexDigits (width n : ℕ) : (hexDigits width n).length = width := by
  simp [hexDigits]

theorem isBare_of_mem_uuidText {upper lower : UInt64} {c : Byte} (h : c ∈ uuidText upper lower) :
    isBare c := by
  have hminus : isBare minus := rfl
  simp only [uuidText, List.mem_append, List.mem_cons] at h
  rcases h with h | rfl | h | rfl | h | rfl | h | rfl | h
  all_goals first | exact isBare_of_mem_hexDigits h | exact hminus

theorem length_uuidText (upper lower : UInt64) : (uuidText upper lower).length = 36 := by
  simp [uuidText, length_hexDigits]

theorem isNullWord_length {s : List Byte} (h : isNullWord s) : s.length = 4 := by
  unfold isNullWord at h
  split at h
  · rfl
  · cases h

theorem quoteNested_uuid (v2 : Bool) (upper lower : UInt64) :
    quoteNested v2 (uuidText upper lower) = uuidText upper lower := by
  have hlength := length_uuidText upper lower
  apply quoteNested_bare
  · intro h
    rw [h] at hlength
    cases hlength
  · exact fun c hc ↦ isBare_of_mem_uuidText hc
  · intro h
    have hfour := isNullWord_length h
    omega

theorem quoteNested_bool (v2 b : Bool) :
    quoteNested v2 (if b then ascii "true" else ascii "false") =
      if b then ascii "true" else ascii "false" := by
  revert v2 b
  decide

def ScalarType.isEscaped : ScalarType → Bool
  | .varchar | .date | .timestamp | .time => true
  | _ => false

/-- A text that goes without quotes by the engine's rule too. -/
def Unquoted (v2 : Bool) (text : Option (List Byte)) : Prop := ∀ s ∈ text, quoteNested v2 s = s

theorem unquoted_numeral (v2 : Bool) {s : List Byte} (h : IsNumeral s) : Unquoted v2 (some s) := by
  intro t ht
  cases ht
  exact quoteNested_numeral v2 h

theorem unquoted_decimal (v2 : Bool) (width scale : ℕ) (internal : DecimalStorage) (d : Datum) :
    Unquoted v2 ((decimalFromVector width scale internal d).map fun (upper, lower) ↦
      decimalToString upper lower width scale) := by
  intro s hs
  have hmeta : Statement.decimalMetaOk width scale := by
    by_contra hmeta
    have hnone : decimalFromVector width scale internal d = none := by
      unfold decimalFromVector
      split <;> simp [hmeta]
    simp [hnone] at hs
  obtain ⟨⟨upper, lower⟩, -, rfl⟩ := Option.mem_map.mp hs
  exact quoteNested_numeral v2 (isNumeral_decimalToString upper lower hmeta)

variable {engine : Engine} {type : ScalarType} {d : Datum}

theorem unquoted_text (v2 : Bool)
    (hfloat : type.isFloating → engine.PrintsNumerals) (hholds : type.holds d) (hescaped : ¬ type.isEscaped) :
    Unquoted v2 (smartAppendFastScalar v2 engine false type d) := by
  cases type <;> cases d <;> simp only [ScalarType.holds, Bool.false_eq_true] at hholds
  case boolean.bool b =>
    intro s hs
    cases hs
    exact quoteNested_bool v2 b
  case tinyint.signed n | smallint.signed n | integer.signed n | bigint.signed n =>
    exact unquoted_numeral v2 (isNumeral_smartAppendI64 n)
  case utinyint.unsigned n | usmallint.unsigned n | uinteger.unsigned n =>
    exact unquoted_numeral v2 (isNumeral_decimal n)
  case ubigint.unsigned n =>
    have h := unquoted_numeral v2 (isNumeral_decimal n)
    simpa [smartAppendFastScalar, fastColToString] using h
  case hugeint.huge upper lower =>
    have h := unquoted_numeral v2 (isNumeral_hugeintToString upper lower)
    simpa [smartAppendFastScalar, fastColToString] using h
  case uhugeint.huge upper lower =>
    have h := unquoted_numeral v2 (isNumeral_formatU128 upper lower)
    simpa [smartAppendFastScalar, fastColToString] using h
  case float.float bits => exact fun s hs ↦ quoteNested_numeral v2 ((hfloat rfl).1 bits s hs)
  case double.double bits => exact fun s hs ↦ quoteNested_numeral v2 ((hfloat rfl).2 bits s hs)
  case uuid.huge upper lower =>
    intro s hs
    have htext : uuidText upper lower = s := by
      simpa [smartAppendFastScalar, fastColToString] using hs
    rw [← htext, quoteNested_uuid]
  case decimal.signed width scale internal n =>
    have h := unquoted_decimal v2 width scale internal (.signed n)
    simpa [smartAppendFastScalar, fastColToString, Function.comp_def] using h
  case decimal.huge width scale internal upper lower =>
    have h := unquoted_decimal v2 width scale internal (.huge upper lower)
    simpa [smartAppendFastScalar, fastColToString, Function.comp_def] using h
  case date.signed | timestamp.signed | time.signed | varchar.bytes => exact absurd rfl hescaped

theorem smartAppendFastScalar_escaped (v2 : Bool) (hescaped : type.isEscaped)
    (hholds : type.holds d) :
    smartAppendFastScalar v2 engine true type d =
      (smartAppendFastScalar v2 engine false type d).map (quoteNested v2) := by
  cases type <;> simp only [ScalarType.isEscaped, Bool.false_eq_true] at hescaped
  case varchar =>
    cases d <;> simp only [ScalarType.holds, Bool.false_eq_true] at hholds
    simp [smartAppendFastScalar, escapedVarchar_eq]
  all_goals simp [smartAppendFastScalar, escapedVarchar_eq]

theorem smartAppendFastScalar_plain (v2 : Bool) (hescaped : ¬ type.isEscaped) (escape : Bool) :
    smartAppendFastScalar v2 engine escape type d = smartAppendFastScalar v2 engine false type d := by
  cases type <;> cases d <;> simp [ScalarType.isEscaped] at hescaped <;>
    simp [smartAppendFastScalar]

/-- The driver quotes what the engine's rule quotes: strings, dates and times by the
same test, and no other scalar has a text that needs it. -/
theorem smartAppendFastScalar_eq (v2 : Bool)
    (hfloat : type.isFloating → engine.PrintsNumerals) (hholds : type.holds d) (escape : Bool) :
    smartAppendFastScalar v2 engine escape type d =
      (smartAppendFastScalar v2 engine false type d).map fun s ↦
        if escape then quoteNested v2 s else s := by
  cases escape with
  | false => simp
  | true =>
    by_cases hescaped : type.isEscaped
    · simpa using smartAppendFastScalar_escaped v2 hescaped hholds
    · rw [smartAppendFastScalar_plain v2 hescaped true]
      have hunquoted := unquoted_text v2 hfloat hholds hescaped
      cases htext : smartAppendFastScalar v2 engine false type d with
      | none => rfl
      | some s =>
        have hs := hunquoted s htext
        simp [hs]

/-- The scalars for which the driver has no text of its own: dates and times that
are infinite or before the year 1, and floats without a text of the engine. -/
def ScalarType.declined (engine : Engine) : ScalarType → Datum → Bool
  | .date, .signed n => !engine.printsDate n
  | .timestamp, .signed n =>
    !(engine.isFiniteTimestamp n && engine.printsDate (engine.toDate (engine.fromTimestamp n).1))
  | .float, .float bits => (engine.floatText bits).isNone
  | .double, .double bits => (engine.doubleText bits).isNone
  | _, _ => false

theorem decimalFromVector_isSome {width scale : ℕ} {internal : DecimalStorage}
    (hsafe : decimalTypeFastSafe width scale internal)
    (hholds : (ScalarType.decimal width scale internal).holds d) :
    (decimalFromVector width scale internal d).isSome := by
  have hmeta : Statement.decimalMetaOk width scale := by
    simp only [decimalTypeFastSafe, Bool.and_eq_true] at hsafe
    exact hsafe.1
  cases internal <;> cases d <;> simp [ScalarType.holds, decimalFromVector, hmeta] at hholds ⊢

theorem isSome_text (v2 : Bool) (hrendered : type.isRendered) (hholds : type.holds d) :
    (smartAppendFastScalar v2 engine false type d).isSome = !type.declined engine d := by
  cases type
  case decimal width scale internal =>
    have h := decimalFromVector_isSome hrendered hholds
    simp [smartAppendFastScalar, fastColToString, ScalarType.declined, h]
  all_goals cases d <;> simp only [ScalarType.holds, Bool.false_eq_true] at hholds
  case date.signed n =>
    cases hprints : engine.printsDate n <;>
      simp [smartAppendFastScalar, fastColToString, formatDatePart_eq, ScalarType.declined, hprints]
  case timestamp.signed n =>
    cases hfinite : engine.isFiniteTimestamp n <;>
      cases hprints : engine.printsDate (engine.toDate (engine.fromTimestamp n).1) <;>
        simp [smartAppendFastScalar, fastColToString, formatDatePart_eq, ScalarType.declined,
          hfinite, hprints]
  all_goals simp [smartAppendFastScalar, fastColToString, ScalarType.declined]

end Text

end PdoDuckdb.Nested
