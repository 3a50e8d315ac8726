import PdoDuckdb.Numerals
import Mathlib.Tactic.Ring
import Mathlib.Tactic.IntervalCases
import Mathlib.Data.Nat.Bitwise

namespace PdoDuckdb.Decimals

open Byte

/-- `'0' + value % 10`. -/
def digitByte (n : ℕ) : Byte := 0x30 + UInt8.ofNat n

section Formatting

/-- The loop of `pdo_duckdb_format_u64`, by the room that is left before `tmp + pos`. -/
def formatU64Loop : ℕ → UInt64 → List Byte → Option (List Byte)
  | 0, _, _ => none
  | room + 1, value, tmp =>
    let tmp := digitByte (value % 10).toNat :: tmp
    if value / 10 = 0 then some tmp else formatU64Loop room (value / 10) tmp

/-- `memcpy` to a buffer; `none` is a write outside it. -/
def copyOut (room : ℕ) (tmp : List Byte) : Option (List Byte) :=
  if tmp.length ≤ room then some tmp else none

/-- `pdo_duckdb_format_u64`, to a buffer of the caller. -/
def formatU64 (value : UInt64) (room : ℕ) : Option (List Byte) :=
  (formatU64Loop 20 value []).bind (copyOut room)

/-- The loop over a `__uint128_t`. -/
def formatWideLoop : ℕ → ℕ → List Byte → Option (List Byte)
  | 0, value, tmp => if value = 0 then some tmp else none
  | room + 1, value, tmp =>
    if value = 0 then some tmp else formatWideLoop room (value / 10) (digitByte (value % 10) :: tmp)

def numeratorBit (upper lower : UInt64) (bit : ℕ) : UInt32 :=
  if 64 ≤ bit then ((upper >>> UInt64.ofNat (bit - 64)) &&& 1).toUInt32
  else ((lower >>> UInt64.ofNat bit) &&& 1).toUInt32

/-- One bit of the division by 10: the quotient and the remainder so far. -/
def divideBit (upper lower : UInt64) (s : UInt64 × UInt64 × UInt32) (bit : ℕ) : UInt64 × UInt64 × UInt32 :=
  let rem := (s.2.2 <<< 1) ||| numeratorBit upper lower bit
  if 10 ≤ rem then
    if 64 ≤ bit then (s.1 ||| (1 <<< UInt64.ofNat (bit - 64)), s.2.1, rem - 10)
    else (s.1, s.2.1 ||| (1 <<< UInt64.ofNat bit), rem - 10)
  else (s.1, s.2.1, rem)

/-- The inner loop where there is no `__uint128_t`, over the bits from 127 to 0. -/
def divideBits (upper lower : UInt64) : ℕ → UInt64 × UInt64 × UInt32 → UInt64 × UInt64 × UInt32
  | 0, s => s
  | bit + 1, s => divideBits upper lower bit (divideBit upper lower s bit)

/-- The loop where there is no `__uint128_t`. -/
def formatPortableLoop : ℕ → UInt64 → UInt64 → List Byte → Option (List Byte)
  | 0, upper, lower, tmp => if upper = 0 ∧ lower = 0 then some tmp else none
  | room + 1, upper, lower, tmp =>
    if upper = 0 ∧ lower = 0 then some tmp
    else
      let s := divideBits upper lower 128 (0, 0, 0)
      formatPortableLoop room s.1 s.2.1 (digitByte s.2.2.toNat :: tmp)

/-- `pdo_duckdb_format_u128`, with or without `PDO_DUCKDB_HAVE_INT128`. -/
def formatU128 (haveInt128 : Bool) (upper lower : UInt64) (room : ℕ) : Option (List Byte) :=
  if upper = 0 then formatU64 lower room
  else if haveInt128 then
    (formatWideLoop 40 (upper.toNat * 0x10000000000000000 + lower.toNat) []).bind (copyOut room)
  else (formatPortableLoop 40 upper lower []).bind (copyOut room)

end Formatting

section Digits

variable {n room : ℕ} {tmp : List Byte}

theorem toUInt8_digitChar (h : n < 10) : (Nat.digitChar n).toUInt8 = digitByte n := by
  interval_cases n <;> rfl

/-- The last digit comes off the end. -/
theorem decimal_eq (n : ℕ) :
    decimal n = (if n < 10 then [] else decimal (n / 10)) ++ [digitByte (n % 10)] := by
  unfold decimal
  rw [Nat.toDigits_eq_if (by decide)]
  split_ifs with hn
  · rw [List.map_singleton, toUInt8_digitChar hn, Nat.mod_eq_of_lt hn]
    rfl
  · rw [List.map_append, List.map_singleton, toUInt8_digitChar (Nat.mod_lt n (by decide))]

theorem decimal_of_lt (h : n < 10) : decimal n = [digitByte n] := by
  rw [decimal_eq, if_pos h, Nat.mod_eq_of_lt h, List.nil_append]

theorem decimal_append (h : ¬ n < 10) (tmp : List Byte) :
    decimal (n / 10) ++ digitByte (n % 10) :: tmp = decimal n ++ tmp := by
  rw [decimal_eq n, if_neg h, List.append_assoc]
  rfl

theorem length_decimal_div (h : ¬ n < 10) (hlen : (decimal n).length ≤ room + 1) :
    (decimal (n / 10)).length ≤ room := by
  rw [decimal_eq, if_neg h, List.length_append, List.length_singleton] at hlen
  exact Nat.le_of_succ_le_succ hlen

end Digits

section Division

variable {upper lower : UInt64} {s : UInt64 × UInt64 × UInt32} {bit j k : ℕ}

def wide (upper lower : UInt64) : ℕ := upper.toNat * 0x10000000000000000 + lower.toNat

structure Divided (upper lower : UInt64) (bit : ℕ) (s : UInt64 × UInt64 × UInt32) : Prop where
  quotient : wide s.1 s.2.1 = wide upper lower / 2 ^ bit / 10 * 2 ^ bit
  remainder : s.2.2.toNat = wide upper lower / 2 ^ bit % 10

theorem wide_lt (upper lower : UInt64) : wide upper lower < 2 ^ 128 := by
  have hu := upper.toNat_lt
  have hl := lower.toNat_lt
  unfold wide
  omega

/-- The next bit goes to the end of the bits before it. -/
theorem div_bit (n k : ℕ) : n / 2 ^ k = 2 * (n / 2 ^ (k + 1)) + n / 2 ^ k % 2 := by
  rw [Nat.pow_succ, ← Nat.div_div_eq_div_mul]
  exact (Nat.div_add_mod _ 2).symm

theorem toNat_bit (a : UInt64) (hj : j < 64) :
    (((a >>> UInt64.ofNat j) &&& 1).toUInt32).toNat = a.toNat / 2 ^ j % 2 := by
  simp [Nat.mod_eq_of_lt, hj, Nat.shiftRight_eq_div_pow]

theorem upper_bit (upper lower : UInt64) (j : ℕ) :
    upper.toNat / 2 ^ j % 2 = wide upper lower / 2 ^ (64 + j) % 2 := by
  have hupper : wide upper lower / 2 ^ 64 = upper.toNat := by
    have hl := lower.toNat_lt
    unfold wide
    omega
  rw [Nat.pow_add, ← Nat.div_div_eq_div_mul, hupper]

theorem pow_dvd_word (hj : j ≤ 64) : 2 ^ j ∣ 0x10000000000000000 := pow_dvd_pow 2 hj

theorem lower_bit (upper lower : UInt64) (hj : j < 64) :
    lower.toNat / 2 ^ j % 2 = wide upper lower / 2 ^ j % 2 := by
  have hmod : wide upper lower % (2 ^ j * 2) = lower.toNat % (2 ^ j * 2) := by
    obtain ⟨c, hc⟩ : 2 ^ j * 2 ∣ 0x10000000000000000 := pow_dvd_word hj
    unfold wide
    rw [hc, Nat.mul_left_comm, Nat.mul_add_mod]
  rw [← Nat.mod_mul_right_div_self, ← Nat.mod_mul_right_div_self, hmod]

theorem toNat_rem {r b : UInt32} (hr : r.toNat < 10) (hb : b.toNat < 2) :
    ((r <<< 1) ||| b).toNat = 2 * r.toNat + b.toNat := by
  have hor : 2 ^ 1 * r.toNat + b.toNat = 2 ^ 1 * r.toNat ||| b.toNat := Nat.two_pow_add_eq_or_of_lt hb _
  have hshift : (r <<< 1).toNat = 2 ^ 1 * r.toNat := by
    rw [UInt32.toNat_shiftLeft, Nat.shiftLeft_eq]
    show r.toNat * 2 % 4294967296 = _
    omega
  rw [UInt32.toNat_or, hshift, ← hor, Nat.pow_one]

/-- A bit below all those of a word. -/
theorem toNat_or_bit {x : UInt64} (hx : 2 ^ (j + 1) ∣ x.toNat) (hj : j < 64) :
    (x ||| (1 <<< UInt64.ofNat j)).toNat = x.toNat + 2 ^ j := by
  obtain ⟨a, ha⟩ := hx
  have hlt : 2 ^ j < 2 ^ 64 := Nat.pow_lt_pow_right (by decide) hj
  have hbit : (1 <<< UInt64.ofNat j : UInt64).toNat = 2 ^ j := by
    rw [UInt64.toNat_shiftLeft, UInt64.toNat_ofNat', Nat.mod_eq_of_lt (Nat.lt_trans hj (by decide)),
      Nat.mod_eq_of_lt hj, Nat.shiftLeft_eq]
    exact (congrArg (· % 2 ^ 64) (Nat.one_mul _)).trans (Nat.mod_eq_of_lt hlt)
  have hor : 2 ^ (j + 1) * a + 2 ^ j = 2 ^ (j + 1) * a ||| 2 ^ j :=
    Nat.two_pow_add_eq_or_of_lt (Nat.pow_lt_pow_right (by decide) j.lt_succ_self) a
  rw [UInt64.toNat_or, hbit, ha, ← hor]

/-- What a division by 10 makes of one bit more. -/
theorem div_ten (n b : ℕ) (hb : b < 2) :
    (2 * n + b) / 10 = 2 * (n / 10) + (if 10 ≤ 2 * (n % 10) + b then 1 else 0) ∧
      (2 * n + b) % 10 = 2 * (n % 10) + b - if 10 ≤ 2 * (n % 10) + b then 10 else 0 := by
  split_ifs <;> omega

theorem toNat_numeratorBit (hbit : bit < 128) :
    (numeratorBit upper lower bit).toNat = wide upper lower / 2 ^ bit % 2 := by
  unfold numeratorBit
  split_ifs with hhigh
  · obtain ⟨j, rfl⟩ := Nat.exists_eq_add_of_le hhigh
    rw [Nat.add_sub_cancel_left, toNat_bit upper (by omega), upper_bit]
  · rw [toNat_bit lower (by omega), lower_bit upper lower (by omega)]

/-- A bit of the quotient, above which all bits are known. -/
theorem wide_or_bit (hbit : bit < 128) (hdvd : 2 ^ (bit + 1) ∣ wide upper lower) :
    (if 64 ≤ bit then wide (upper ||| (1 <<< UInt64.ofNat (bit - 64))) lower
      else wide upper (lower ||| (1 <<< UInt64.ofNat bit))) = wide upper lower + 2 ^ bit := by
  have hl := lower.toNat_lt
  split_ifs with hhigh
  · obtain ⟨j, rfl⟩ := Nat.exists_eq_add_of_le hhigh
    have hupper : 2 ^ (j + 1) ∣ upper.toNat := by
      obtain ⟨a, ha⟩ := hdvd
      rw [Nat.add_assoc, Nat.pow_add, Nat.mul_assoc] at ha
      unfold wide at ha
      exact ⟨a, by omega⟩
    unfold wide
    rw [Nat.add_sub_cancel_left, toNat_or_bit hupper (by omega), Nat.pow_add]
    ring
  · have hlower : 2 ^ (bit + 1) ∣ lower.toNat := by
      have hword : 2 ^ (bit + 1) ∣ upper.toNat * 0x10000000000000000 :=
        Dvd.dvd.mul_left (pow_dvd_word (by omega)) _
      exact (Nat.dvd_add_right hword).mp hdvd
    unfold wide
    rw [toNat_or_bit hlower (by omega)]
    ring

theorem divided_bit (h : Divided upper lower (bit + 1) s) (hbit : bit < 128) :
    Divided upper lower bit (divideBit upper lower s bit) := by
  obtain ⟨hquotient, hremainder⟩ := h
  have hb : (numeratorBit upper lower bit).toNat = wide upper lower / 2 ^ bit % 2 := toNat_numeratorBit hbit
  have hb2 : wide upper lower / 2 ^ bit % 2 < 2 := Nat.mod_lt _ (by decide)
  have hrem := toNat_rem (r := s.2.2) (b := numeratorBit upper lower bit)
    (by rw [hremainder]; exact Nat.mod_lt _ (by decide)) (by rw [hb]; exact hb2)
  rw [hremainder, hb] at hrem
  have hten := div_ten (wide upper lower / 2 ^ (bit + 1)) _ hb2
  rw [← div_bit] at hten
  have hdvd : 2 ^ (bit + 1) ∣ wide s.1 s.2.1 := ⟨_, hquotient.trans (Nat.mul_comm _ _)⟩
  have hor := wide_or_bit hbit hdvd
  have hle : (10 : UInt32) ≤ (s.2.2 <<< 1) ||| numeratorBit upper lower bit ↔
      10 ≤ 2 * (wide upper lower / 2 ^ (bit + 1) % 10) + wide upper lower / 2 ^ bit % 2 := by
    rw [UInt32.le_iff_toNat_le, hrem]
    rfl
  unfold divideBit
  dsimp only
  by_cases hge : (10 : UInt32) ≤ (s.2.2 <<< 1) ||| numeratorBit upper lower bit
  · rw [if_pos hge]
    rw [if_pos (hle.mp hge), if_pos (hle.mp hge)] at hten
    have hsub := UInt32.toNat_sub_of_le _ _ hge
    rw [hrem] at hsub
    have hq : wide s.1 s.2.1 + 2 ^ bit = wide upper lower / 2 ^ bit / 10 * 2 ^ bit := by
      rw [hten.1, hquotient, Nat.pow_succ]
      ring
    split_ifs with hhigh
    · rw [if_pos hhigh] at hor
      exact ⟨hor.trans hq, hsub.trans hten.2.symm⟩
    · rw [if_neg hhigh] at hor
      exact ⟨hor.trans hq, hsub.trans hten.2.symm⟩
  · rw [if_neg hge]
    rw [if_neg (mt hle.mpr hge), if_neg (mt hle.mpr hge)] at hten
    refine ⟨?_, hrem.trans hten.2.symm⟩
    rw [hten.1, hquotient, Nat.pow_succ]
    ring

theorem divided_bits (h : Divided upper lower bit s) (hbit : bit ≤ 128) :
    Divided upper lower 0 (divideBits upper lower bit s) := by
  induction bit generalizing s with
  | zero => exact h
  | succ bit ih => exact ih (divided_bit h hbit) (Nat.le_of_succ_le hbit)

theorem divideBits_eq (upper lower : UInt64) :
    wide (divideBits upper lower 128 (0, 0, 0)).1 (divideBits upper lower 128 (0, 0, 0)).2.1 =
        wide upper lower / 10 ∧
      (divideBits upper lower 128 (0, 0, 0)).2.2.toNat = wide upper lower % 10 := by
  have hstart : Divided upper lower 128 (0, 0, 0) := by
    have hzero : wide upper lower / 2 ^ 128 = 0 := Nat.div_eq_of_lt (wide_lt upper lower)
    exact ⟨by rw [hzero]; rfl, by rw [hzero]; rfl⟩
  have hend := divided_bits hstart le_rfl
  have hq := hend.quotient
  have hr := hend.remainder
  rw [Nat.pow_zero, Nat.div_one] at hq hr
  rw [Nat.mul_one] at hq
  exact ⟨hq, hr⟩

end Division

section Loops

variable {upper lower value : UInt64} {n room : ℕ} {tmp : List Byte}

theorem formatU64Loop_eq (h : (decimal value.toNat).length ≤ room) :
    formatU64Loop room value tmp = some (decimal value.toNat ++ tmp) := by
  induction room generalizing value tmp with
  | zero => exact absurd (List.length_eq_zero_iff.mp (Nat.le_zero.mp h)) (decimal_ne_nil _)
  | succ room ih =>
    have hdiv : (value / 10).toNat = value.toNat / 10 := UInt64.toNat_div value 10
    have hmod : (value % 10).toNat = value.toNat % 10 := UInt64.toNat_mod value 10
    have hzero : value / 10 = 0 ↔ value.toNat < 10 := by
      rw [← UInt64.toNat_inj, hdiv]
      show value.toNat / 10 = 0 ↔ _
      omega
    unfold formatU64Loop
    dsimp only
    rw [hmod]
    by_cases hlast : value.toNat < 10
    · rw [if_pos (hzero.mpr hlast), decimal_of_lt hlast, Nat.mod_eq_of_lt hlast]
      rfl
    · rw [if_neg (mt hzero.mp hlast), ih (hdiv ▸ length_decimal_div hlast h), hdiv,
        decimal_append hlast]

theorem formatWideLoop_zero : formatWideLoop room 0 tmp = some tmp := by
  cases room <;> rfl

theorem formatWideLoop_eq (hn : n ≠ 0) (h : (decimal n).length ≤ room) :
    formatWideLoop room n tmp = some (decimal n ++ tmp) := by
  induction room generalizing n tmp with
  | zero => exact absurd (List.length_eq_zero_iff.mp (Nat.le_zero.mp h)) (decimal_ne_nil _)
  | succ room ih =>
    rw [formatWideLoop, if_neg hn]
    by_cases hlast : n < 10
    · rw [Nat.div_eq_of_lt hlast, formatWideLoop_zero, decimal_of_lt hlast, Nat.mod_eq_of_lt hlast]
      rfl
    · rw [ih (by omega) (length_decimal_div hlast h), decimal_append hlast]

theorem wide_eq_zero : (upper = 0 ∧ lower = 0) ↔ wide upper lower = 0 := by
  rw [← UInt64.toNat_inj, ← UInt64.toNat_inj]
  unfold wide
  show upper.toNat = 0 ∧ lower.toNat = 0 ↔ _
  omega

theorem formatPortableLoop_eq (h : (decimal (wide upper lower)).length ≤ room) (hne : wide upper lower ≠ 0) :
    formatPortableLoop room upper lower tmp = some (decimal (wide upper lower) ++ tmp) := by
  induction room generalizing upper lower tmp with
  | zero => exact absurd (List.length_eq_zero_iff.mp (Nat.le_zero.mp h)) (decimal_ne_nil _)
  | succ room ih =>
    obtain ⟨hquotient, hremainder⟩ := divideBits_eq upper lower
    rw [formatPortableLoop, if_neg (mt wide_eq_zero.mp hne)]
    dsimp only
    rw [hremainder]
    by_cases hlast : wide upper lower < 10
    · have hzero : wide (divideBits upper lower 128 (0, 0, 0)).1 (divideBits upper lower 128 (0, 0, 0)).2.1 = 0 := by
        omega
      obtain ⟨hu, hl⟩ := wide_eq_zero.mpr hzero
      rw [hu, hl, decimal_of_lt hlast, Nat.mod_eq_of_lt hlast]
      cases room <;> rfl
    · rw [ih (hquotient ▸ length_decimal_div hlast h) (by omega), hquotient, decimal_append hlast]

/-- A text of a word of 64 bits fits any buffer of 20 bytes. -/
theorem formatU64_eq (value : UInt64) (hroom : 20 ≤ room) :
    formatU64 value room = some (decimal value.toNat) := by
  have hlen : (decimal value.toNat).length ≤ 20 :=
    length_decimal_le (by decide) (Nat.lt_trans value.toNat_lt (by decide))
  unfold formatU64
  rw [formatU64Loop_eq hlen, List.append_nil, Option.bind_some, copyOut, if_pos (hlen.trans hroom)]

/-- A text of 128 bits fits a buffer of 39 bytes. -/
theorem formatU128_eq (haveInt128 : Bool) (upper lower : UInt64) (hroom : 39 ≤ room) :
    formatU128 haveInt128 upper lower room = some (decimal (wide upper lower)) := by
  have hlen : (decimal (wide upper lower)).length ≤ 39 :=
    length_decimal_le (by decide) (Nat.lt_trans (wide_lt upper lower) (by decide))
  have hcopy : copyOut room (decimal (wide upper lower)) = some (decimal (wide upper lower)) :=
    if_pos (hlen.trans hroom)
  unfold formatU128
  by_cases hupper : upper = 0
  · rw [if_pos hupper, formatU64_eq lower (by omega)]
    subst hupper
    unfold wide
    rw [UInt64.toNat_zero, Nat.zero_mul, Nat.zero_add]
  · have hne : wide upper lower ≠ 0 := fun h ↦ hupper (wide_eq_zero.mpr h).1
    rw [if_neg hupper]
    have hlen40 : (decimal (wide upper lower)).length ≤ 40 := hlen.trans (by decide)
    cases haveInt128 with
    | true =>
      have hloop : formatWideLoop 40 (wide upper lower) [] = some (decimal (wide upper lower) ++ []) :=
        formatWideLoop_eq hne hlen40
      rw [if_pos rfl]
      change (formatWideLoop 40 (wide upper lower) []).bind _ = _
      rw [hloop, List.append_nil, Option.bind_some, hcopy]
    | false =>
      rw [if_neg (by decide), formatPortableLoop_eq hlen40 hne, List.append_nil, Option.bind_some, hcopy]

end Loops

end PdoDuckdb.Decimals
