import PdoDuckdb.Texts.Clocks

namespace PdoDuckdb.Texts

open Byte Library Decimals Nested

section Renderers

/-- `pdo_duckdb_abs_i64`, none of whose steps may overflow. -/
def absI64 (v : Int64) : Option UInt64 :=
  if v < 0 then (int64 (v.toInt + 1)).bind fun n ↦ (int64 (-n)).map fun _ ↦ Decimals.absI64 v
  else some (Decimals.absI64 v)

/-- `pdo_duckdb_format_interval_time_part`, behind what is in a buffer. -/
def formatIntervalTimePart (size : ℕ) (buf : List Byte) (micros : Int64) : Printed :=
  (absI64 micros).bind fun absMicros ↦
    let hours := absMicros / 3600000000
    let minutes := absMicros % 3600000000 / 60000000
    let seconds := absMicros % 3600000000 % 60000000 / 1000000
    let frac := absMicros % 3600000000 % 60000000 % 1000000
    (write size buf (if micros < 0 then [minus] else [])).bind fun out ↦
      (snprintf size (64 - (out.length - buf.length)) out
        (clockText hours.toNat minutes.toNat seconds.toNat)).next fun out ↦
          (appendFraction size out frac.toNat 6).map some

/-- `%d day%s`. -/
def daysText (days : Int32) : List Byte :=
  signedDecimal days.toInt ++ (ascii " day" ++ if days = 1 ∨ days = -1 then [] else ascii "s")

/-- `pdo_duckdb_interval_to_string`, whose buffer has 96 bytes. -/
def intervalToString (months days : Int32) (micros : Int64) : Printed :=
  if months ≠ 0 then some none
  else if days ≠ 0 then
    (snprintf 96 96 [] (daysText days)).next fun buf ↦
      if micros ≠ 0 then
        (write 96 buf [space]).bind fun buf ↦
          (formatIntervalTimePart 96 buf micros).next fun out ↦
            if out.length = buf.length ∨ 96 ≤ out.length then some none else some (some out)
      else some (some buf)
  else
    (formatIntervalTimePart 96 [] micros).next fun out ↦
      if out.length = 0 ∨ 96 ≤ out.length then some none else some (some out)

/-- `DUCKDB_TYPE_TIME_NS` of `pdo_duckdb_fast_col_to_string`, whose buffer has 64 bytes. -/
def timeNsToString (nanos : Int64) : Printed :=
  if nanos < 0 ∨ 86400000000000 ≤ nanos then some none
  else
    let hour := Int8.ofInt (nanos.toInt / 3600000000000)
    let min := Int8.ofInt (nanos.toInt % 3600000000000 / 60000000000)
    let sec := Int8.ofInt (nanos.toInt % 3600000000000 % 60000000000 / 1000000000)
    (snprintf 64 64 [] (clockText hour.toInt min.toInt sec.toInt)).join.bind fun buf ↦
      (appendFraction 64 buf (nanos.toInt % 3600000000000 % 60000000000 % 1000000000) 9).map some

/-- `pdo_duckdb_format_tz_offset`, behind what is in a buffer. -/
def formatTzOffset (size : ℕ) (buf : List Byte) (offset : Int32) : Printed :=
  (if offset.toInt < 0 then int64 (-offset.toInt) else some offset.toInt).bind fun off ↦
    let sign := if offset.toInt < 0 then minus else 0x2b
    let hours := off / 3600
    let minutes := off % 3600 / 60
    let seconds := off % 60
    if seconds ≠ 0 then snprintf size 16 buf (sign :: clockText hours minutes seconds)
    else if minutes ≠ 0 then snprintf size 16 buf (sign :: (padded 2 hours ++ colon :: padded 2 minutes))
    else snprintf size 16 buf (sign :: padded 2 hours)

/-- `DUCKDB_TYPE_TIME_TZ`, of what `duckdb_from_time_tz` tells. -/
def timeTzToString (ts : TimeStruct) (offset : Int32) : Printed :=
  (snprintf 64 32 [] (clockText ts.hour.toInt ts.min.toInt ts.sec.toInt)).join.bind fun buf ↦
    (appendFraction 64 buf ts.micros.toInt 6).bind fun buf ↦
      (formatTzOffset 64 buf offset).next fun out ↦ if 64 ≤ out.length then some none else some (some out)

end Renderers

section Readers

/-- What a clock of `width` digits after the point counts. -/
def clockTicks (width : ℕ) (t : (ℕ × ℕ × ℕ) × ℕ) : ℕ :=
  ((t.1.1 * 60 + t.1.2.1) * 60 + t.1.2.2) * 10 ^ width + t.2

def readSignedClock (width : ℕ) : Reader Byte ℤ := readSigned ((readClock width).map (clockTicks width))

def readInterval : Reader Byte (ℤ × ℤ) :=
  Reader.orElse
    (readInteger.andThen fun days ↦ (Reader.literal (ascii " day")).andThen fun _ ↦
      (Reader.branch 0x73 (Reader.result ()) (Reader.result ())).andThen fun _ ↦
        (Reader.branch space (readSignedClock 6) (Reader.result 0)).map fun micros ↦ (days, micros))
    ((readSignedClock 6).map fun micros ↦ (0, micros))

def readSeconds : Reader Byte ℕ :=
  readNatural.andThen fun hours ↦
    Reader.branch colon
      (readNatural.andThen fun minutes ↦
        (Reader.branch colon readNatural (Reader.result 0)).map fun seconds ↦ (hours * 60 + minutes) * 60 + seconds)
      (Reader.result (hours * 60 * 60))

def readOffset : Reader Byte ℤ :=
  Reader.branch minus (readSeconds.map fun n : ℕ ↦ -(n : ℤ))
    ((Reader.symbol 0x2b).andThen fun _ ↦ readSeconds.map fun n : ℕ ↦ (n : ℤ))

def readTimeTz : Reader Byte (((ℕ × ℕ × ℕ) × ℕ) × ℤ) :=
  (readClock 6).andThen fun t ↦ readOffset.map fun offset ↦ (t, offset)

end Readers

section Intervals

variable {size k : ℕ} {buf : List Byte}

theorem absI64_eq (v : Int64) : absI64 v = some (Decimals.absI64 v) ∧ (Decimals.absI64 v).toNat = v.toInt.natAbs := by
  have hle := v.le_toInt
  have hlt := v.toInt_lt
  by_cases hneg : v < 0
  · have hv := hneg
    rw [Int64.lt_iff_toInt_lt, Int64.toInt_zero] at hv
    have hsucc : int64 (v.toInt + 1) = some (v.toInt + 1) := if_pos (by omega)
    have habs : int64 (-(v.toInt + 1)) = some (-(v.toInt + 1)) := if_pos (by omega)
    unfold absI64
    rw [if_pos hneg, hsucc, Option.bind_some, habs]
    exact ⟨rfl, Decimals.absI64_eq hneg⟩
  · unfold absI64 Decimals.absI64
    rw [if_neg hneg, if_neg hneg]
    exact ⟨rfl, toUInt64_nonneg hneg⟩

def timePartText (micros : ℤ) : List Byte :=
  (if micros < 0 then [minus] else []) ++
    (clockText (micros.natAbs / 3600000000 : ℕ) (micros.natAbs % 3600000000 / 60000000 : ℕ)
        (micros.natAbs % 3600000000 % 60000000 / 1000000 : ℕ) ++
      fractionText (micros.natAbs % 3600000000 % 60000000 % 1000000) 6)

theorem length_timePartClock (micros : Int64) :
    (clockText (micros.toInt.natAbs / 3600000000 : ℕ) (micros.toInt.natAbs % 3600000000 / 60000000 : ℕ)
      (micros.toInt.natAbs % 3600000000 % 60000000 / 1000000 : ℕ)).length ≤ 16 := by
  have hle := micros.le_toInt
  have hlt := micros.toInt_lt
  exact length_clockText _ _ _ (show 2 ≤ 10 by decide) (by omega) (by omega) (by omega)

theorem length_timePartText (micros : Int64) : (timePartText micros.toInt).length ≤ 24 := by
  have hclock := length_timePartClock micros
  have hfraction := length_fractionText (micros.toInt.natAbs % 3600000000 % 60000000 % 1000000)
    (show 0 < 6 by decide) (by omega)
  have hsign : (if micros.toInt < 0 then [minus] else []).length ≤ 1 := by split_ifs <;> decide
  unfold timePartText
  rw [List.length_append, List.length_append]
  omega

theorem formatIntervalTimePart_eq (micros : Int64) (hsize : buf.length + 25 ≤ size) :
    formatIntervalTimePart size buf micros = some (some (buf ++ timePartText micros.toInt)) := by
  obtain ⟨habs, hvalue⟩ := absI64_eq micros
  have hclock := length_timePartClock micros
  have hneg : micros < 0 ↔ micros.toInt < 0 := by rw [Int64.lt_iff_toInt_lt, Int64.toInt_zero]
  have hsign : (if micros.toInt < 0 then [minus] else []).length ≤ 1 := by split_ifs <;> decide
  unfold formatIntervalTimePart
  unfold timePartText
  rw [habs, Option.bind_some]
  simp only [UInt64.toNat_div, UInt64.toNat_mod, UInt64.reduceToNat, hvalue, hneg]
  generalize (if micros.toInt < 0 then [minus] else []) = sign at hsign ⊢
  have hfraction : micros.toInt.natAbs % 3600000000 % 60000000 % 1000000 < 10 ^ 6 := by omega
  rw [write_eq (by omega), Option.bind_some, List.length_append, Nat.add_sub_cancel_left,
    snprintf_eq (by rw [List.length_append]; omega) (by omega), next_some,
    appendFraction_eq (by decide) (by decide) hfraction]
  · rw [Option.map_some, List.append_assoc, List.append_assoc]
  · rw [List.length_append, List.length_append]
    omega

theorem length_daysText (days : Int32) : (daysText days).length ≤ 16 := by
  have hle := days.le_toInt
  have hlt := days.toInt_lt
  have hdigits : (decimal days.toInt.natAbs).length ≤ 10 := length_decimal_le (by decide) (by omega)
  unfold daysText
  rw [signedDecimal_eq, List.length_append, List.length_append, List.length_append]
  split_ifs <;> simp [ascii] <;> omega

def intervalText (days : Int32) (micros : ℤ) : List Byte :=
  if days = 0 then timePartText micros
  else daysText days ++ if micros = 0 then [] else space :: timePartText micros

theorem timePartText_ne_nil (micros : ℤ) : timePartText micros ≠ [] := by
  unfold timePartText clockText
  simp

theorem intervalToString_eq (days : Int32) (micros : Int64) :
    intervalToString 0 days micros = some (some (intervalText days micros.toInt)) ∧
      (intervalText days micros.toInt).length < 96 := by
  have hdays := length_daysText days
  have htime := length_timePartText micros
  have hne := List.length_pos_iff.mpr (timePartText_ne_nil micros.toInt)
  have hzero : micros = 0 ↔ micros.toInt = 0 := by rw [← Int64.toInt_inj, Int64.toInt_zero]
  unfold intervalToString intervalText
  rw [if_neg (not_not_intro rfl)]
  by_cases hd : days = 0
  · rw [if_neg (not_not_intro hd), if_pos hd, formatIntervalTimePart_eq micros (by decide), next_some,
      List.nil_append, if_neg (by omega)]
    exact ⟨rfl, by omega⟩
  · rw [if_pos hd, if_neg hd, snprintf_eq (by rw [List.length_nil]; omega) (by omega), next_some, List.nil_append]
    by_cases hm : micros = 0
    · rw [if_neg (not_not_intro hm), if_pos (hzero.mp hm), List.append_nil]
      exact ⟨rfl, by omega⟩
    · have hlen : (daysText days ++ [space]).length ≤ 17 := by
        rw [List.length_append, List.length_singleton]
        omega
      rw [if_pos hm, if_neg (mt hzero.mpr hm), write_eq (by rw [List.length_singleton]; omega), Option.bind_some,
        formatIntervalTimePart_eq micros (by omega), next_some]
      have htext : daysText days ++ [space] ++ timePartText micros.toInt =
          daysText days ++ space :: timePartText micros.toInt := List.append_assoc _ _ _
      have hboth := congrArg List.length htext
      rw [List.length_append] at hboth
      have hlong : ¬ ((daysText days ++ [space] ++ timePartText micros.toInt).length = (daysText days ++ [space]).length ∨
          96 ≤ (daysText days ++ [space] ++ timePartText micros.toInt).length) := by
        rw [List.length_append]
        omega
      rw [if_neg hlong, htext]
      exact ⟨rfl, by omega⟩

theorem clockTicks_six (n : ℕ) :
    clockTicks 6 ((n / 3600000000, n % 3600000000 / 60000000, n % 3600000000 % 60000000 / 1000000),
      n % 3600000000 % 60000000 % 1000000) = n := by
  unfold clockTicks
  dsimp only
  omega

theorem reads_timePart (micros : ℤ) : Reads AfterClock (readSignedClock 6) (timePartText micros) micros := by
  have hclock := (reads_clock (micros.natAbs / 3600000000) (micros.natAbs % 3600000000 / 60000000)
    (micros.natAbs % 3600000000 % 60000000 / 1000000) (show 0 < 6 by decide)
    (show micros.natAbs % 3600000000 % 60000000 % 1000000 < 10 ^ 6 by omega)).map (clockTicks 6)
  rw [clockTicks_six] at hclock
  refine reads_signed hclock fun r ↦ ?_
  unfold clockText
  rw [List.append_assoc, List.append_assoc]
  exact ends_of_isDigit rfl (padded_ne_nil 2 _) (padded_digits 2 _) _

theorem ends_padded {a : Byte} (ha : isDigit a = false) (n : ℕ) (r : List Byte) :
    Delimited.Ends (· ≠ a) (padded 2 (n : ℤ) ++ r) :=
  ends_of_isDigit ha (padded_ne_nil 2 n) (padded_digits 2 n) r

/-- A time has no days before it. -/
theorem timePart_rejects {β : Type} (micros : ℤ) (f : ℤ → Unit → Reader Byte β) :
    Rejects (readInteger.andThen fun days ↦ (Reader.literal (ascii " day")).andThen (f days)) (timePartText micros) := by
  unfold timePartText clockText
  rw [List.append_assoc, ← List.append_assoc]
  refine (reads_sign (micros < 0) (reads_padded 2 _) (ends_padded rfl _)).rejects ?_ fun r ↦ ends_cons_of_ne rfl _
  intro r
  have hliteral := Reads.literal_rejects (a := space) (t := ascii "day") (c := colon) (by decide)
    (s := padded 2 (micros.natAbs % 3600000000 / 60000000 : ℕ) ++
      colon :: padded 2 (micros.natAbs % 3600000000 % 60000000 / 1000000 : ℕ) ++
        fractionText (micros.natAbs % 3600000000 % 60000000 % 1000000) 6) r
  exact congrArg (Option.bind · _) hliteral

theorem reads_daysUnit (days : Int32) :
    Reads (· ≠ 0x73) (Reader.branch 0x73 (Reader.result ()) (Reader.result ()))
      (if days = 1 ∨ days = -1 then [] else ascii "s") () := by
  have hempty : Reads (· ≠ 0x73) (Reader.result ()) ([] : List Byte) () := Reads.result ()
  split_ifs
  · exact Reads.branch_skipped hempty fun _ hr ↦ hr
  · exact Reads.branch_taken hempty

theorem reads_days (days : Int32) {D : Byte → Prop} {p : Reader Byte ℤ} {s : List Byte} {micros : ℤ}
    (hp : Reads D p s micros) (hs : ∀ r, Delimited.Ends D r → Delimited.Ends (· ≠ 0x73) (s ++ r)) :
    Reads D (readInteger.andThen fun days ↦ (Reader.literal (ascii " day")).andThen fun _ ↦
      (Reader.branch 0x73 (Reader.result ()) (Reader.result ())).andThen fun _ ↦ p.map fun micros ↦ (days, micros))
      (daysText days ++ s) (days.toInt, micros) := by
  unfold daysText
  rw [List.append_assoc, List.append_assoc]
  refine (reads_signedDecimal days.toInt).andThen ?_ fun r _ ↦ ends_cons_of_ne rfl _
  refine (Reads.literal (ascii " day")).andThen_any ?_
  exact (reads_daysUnit days).andThen (hp.map _) hs

theorem reads_interval (days : Int32) (micros : ℤ) :
    Reads (fun _ ↦ False) readInterval (intervalText days micros) (days.toInt, micros) := by
  have hclock : Reads (fun _ ↦ False) (readSignedClock 6) (timePartText micros) micros :=
    (reads_timePart micros).mono fun _ h ↦ h.elim
  unfold intervalText readInterval
  by_cases hd : days = 0
  · rw [if_pos hd, hd]
    exact Reads.orElse_right (timePart_rejects micros _) (hclock.map _)
  · rw [if_neg hd]
    apply Reads.orElse_left
    by_cases hm : micros = 0
    · rw [if_pos hm, hm]
      exact reads_days days (Reads.branch_skipped (Reads.result 0) fun _ hr c hc ↦ (hr c hc).elim)
        fun _ hr c hc ↦ (hr c hc).elim
    · rw [if_neg hm]
      exact reads_days days (Reads.branch_taken hclock) fun r _ ↦ Delimited.Ends.cons (by decide) _

end Intervals

section Times

def TimeNs : Type := {nanos : Int64 // 0 ≤ nanos.toInt ∧ nanos.toInt < 86400000000000}

def timeNsText (n : ℕ) : List Byte :=
  clockText (n / 3600000000000 : ℕ) (n % 3600000000000 / 60000000000 : ℕ)
      (n % 3600000000000 % 60000000000 / 1000000000 : ℕ) ++
    fractionText (n % 3600000000000 % 60000000000 % 1000000000) 9

theorem timeNsToString_eq (nanos : TimeNs) :
    timeNsToString nanos.1 = some (some (timeNsText nanos.1.toInt.toNat)) ∧
      (timeNsText nanos.1.toInt.toNat).length < 64 := by
  obtain ⟨nanos, hle, hlt⟩ := nanos
  obtain ⟨n, hn⟩ := Int.eq_ofNat_of_zero_le hle
  have hrange : ¬ (nanos < 0 ∨ 86400000000000 ≤ nanos) := by
    rw [Int64.lt_iff_toInt_lt, Int64.le_iff_toInt_le, Int64.toInt_zero]
    show ¬ (_ ∨ 86400000000000 ≤ nanos.toInt)
    omega
  have hday : n < 86400000000000 := by omega
  have hclock := length_clockText (n / 3600000000000) (n % 3600000000000 / 60000000000)
    (n % 3600000000000 % 60000000000 / 1000000000) (le_refl 2) (by omega) (by omega) (by omega)
  have hfrac : n % 3600000000000 % 60000000000 % 1000000000 < 10 ^ 9 := by omega
  have hfraction := length_fractionText _ (show 0 < 9 by decide) hfrac
  have hhour : (Int8.ofInt ((n : ℤ) / 3600000000000)).toInt = (n / 3600000000000 : ℕ) :=
    Int8.toInt_ofInt_of_le (by omega) (by omega)
  have hmin : (Int8.ofInt ((n : ℤ) % 3600000000000 / 60000000000)).toInt =
      (n % 3600000000000 / 60000000000 : ℕ) := Int8.toInt_ofInt_of_le (by omega) (by omega)
  have hsec : (Int8.ofInt ((n : ℤ) % 3600000000000 % 60000000000 / 1000000000)).toInt =
      (n % 3600000000000 % 60000000000 / 1000000000 : ℕ) := Int8.toInt_ofInt_of_le (by omega) (by omega)
  unfold timeNsToString timeNsText
  dsimp only
  rw [if_neg hrange, hn, Int.toNat_natCast, hhour, hmin, hsec,
    snprintf_eq (by rw [List.length_nil]; omega) (by omega)]
  refine ⟨?_, by rw [List.length_append]; omega⟩
  exact congrArg (Option.map some) (appendFraction_eq (by decide) (by decide) hfrac (by
    rw [List.nil_append]
    omega))

theorem clockTicks_nine (n : ℕ) :
    clockTicks 9 ((n / 3600000000000, n % 3600000000000 / 60000000000, n % 3600000000000 % 60000000000 / 1000000000),
      n % 3600000000000 % 60000000000 % 1000000000) = n := by
  unfold clockTicks
  dsimp only
  omega

theorem reads_timeNs (n : ℕ) : Reads AfterClock ((readClock 9).map (clockTicks 9)) (timeNsText n) n := by
  have hclock := (reads_clock (n / 3600000000000) (n % 3600000000000 / 60000000000)
    (n % 3600000000000 % 60000000000 / 1000000000) (show 0 < 9 by decide)
    (show n % 3600000000000 % 60000000000 % 1000000000 < 10 ^ 9 by omega)).map (clockTicks 9)
  rwa [clockTicks_nine] at hclock

end Times

section Zones

variable {size n : ℕ} {buf : List Byte}

def secondsText (n : ℕ) : List Byte :=
  padded 2 (n / 3600 : ℕ) ++
    if n % 60 ≠ 0 then colon :: (padded 2 (n % 3600 / 60 : ℕ) ++ colon :: padded 2 (n % 60 : ℕ))
    else if n % 3600 / 60 ≠ 0 then colon :: padded 2 (n % 3600 / 60 : ℕ)
    else []

def offsetText (offset : ℤ) : List Byte := (if offset < 0 then minus else 0x2b) :: secondsText offset.natAbs

theorem length_secondsText (h : n ≤ 0x80000000) : (secondsText n).length ≤ 12 := by
  have hhours : (padded 2 (n / 3600 : ℕ)).length ≤ max 2 6 := length_padded_natCast (by decide) (by omega)
  have hminutes : (padded 2 (n % 3600 / 60 : ℕ)).length = 2 := length_padded_eq (by decide) (by omega)
  have hseconds : (padded 2 (n % 60 : ℕ)).length = 2 := length_padded_eq (by decide) (by omega)
  unfold secondsText
  split_ifs <;> simp only [List.length_append, List.length_cons, List.length_nil] <;> omega

theorem natAbs_le (offset : Int32) : offset.toInt.natAbs ≤ 0x80000000 := by
  have hle := offset.le_toInt
  have hlt := offset.toInt_lt
  omega

theorem formatTzOffset_eq (offset : Int32) (hsize : buf.length + 16 ≤ size) :
    formatTzOffset size buf offset = some (some (buf ++ offsetText offset.toInt)) := by
  have habs := natAbs_le offset
  have hlen := length_secondsText habs
  have hoff : (if offset.toInt < 0 then int64 (-offset.toInt) else some offset.toInt) =
      some (offset.toInt.natAbs : ℤ) := by
    split_ifs with hneg
    · unfold int64
      rw [if_pos (by omega)]
      exact congrArg some (by omega)
    · exact congrArg some (by omega)
  have htext : snprintf size 16 buf (offsetText offset.toInt) = some (some (buf ++ offsetText offset.toInt)) := by
    unfold offsetText
    exact snprintf_eq (by rw [List.length_cons]; omega) (by rw [List.length_cons]; omega)
  have hseconds : ((offset.toInt.natAbs : ℤ) % 60 ≠ 0) = (offset.toInt.natAbs % 60 ≠ 0) := propext (by omega)
  have hminutes : ((offset.toInt.natAbs : ℤ) % 3600 / 60 ≠ 0) = (offset.toInt.natAbs % 3600 / 60 ≠ 0) :=
    propext (by omega)
  rw [← htext]
  unfold formatTzOffset offsetText secondsText
  rw [hoff, Option.bind_some]
  dsimp only
  simp only [hseconds, hminutes]
  generalize (if offset.toInt < 0 then minus else 0x2b) = sign
  by_cases hs : offset.toInt.natAbs % 60 ≠ 0
  · rw [if_pos hs, if_pos hs]
    rfl
  · rw [if_neg hs, if_neg hs]
    by_cases hm : offset.toInt.natAbs % 3600 / 60 ≠ 0
    · rw [if_pos hm, if_pos hm]
      rfl
    · rw [if_neg hm, if_neg hm, List.append_nil]
      rfl

theorem reads_seconds (n : ℕ) : Reads (fun _ ↦ False) readSeconds (secondsText n) n := by
  have hnil {β : Type} (p : Reader Byte β) (b : β) :
      Reads (fun _ ↦ False) (Reader.branch colon p (Reader.result b)) [] b :=
    Reads.branch_skipped (Reads.result b) fun _ hr c hc ↦ (hr c hc).elim
  unfold readSeconds secondsText
  by_cases hs : n % 60 ≠ 0
  · rw [if_pos hs]
    have hlast : Reads (fun _ ↦ False) readNatural (padded 2 (n % 60 : ℕ)) (n % 60) :=
      (reads_padded 2 _).mono fun _ h ↦ h.elim
    have hread := (Reads.branch_taken (a := colon) (q := Reader.result 0) hlast).map fun seconds ↦
      (n / 3600 * 60 + n % 3600 / 60) * 60 + seconds
    rw [show (n / 3600 * 60 + n % 3600 / 60) * 60 + n % 60 = n by omega] at hread
    refine (reads_padded 2 (n / 3600)).andThen ?_ fun r _ ↦ ends_cons_of_ne rfl _
    apply Reads.branch_taken
    exact (reads_padded 2 (n % 3600 / 60)).andThen hread fun r _ ↦ ends_cons_of_ne rfl _
  · rw [if_neg hs]
    by_cases hm : n % 3600 / 60 ≠ 0
    · rw [if_pos hm]
      have hread := (hnil readNatural 0).map fun seconds ↦ (n / 3600 * 60 + n % 3600 / 60) * 60 + seconds
      rw [show (n / 3600 * 60 + n % 3600 / 60) * 60 + 0 = n by omega] at hread
      refine (reads_padded 2 (n / 3600)).andThen ?_ fun r _ ↦ ends_cons_of_ne rfl _
      apply Reads.branch_taken
      exact ((reads_padded 2 (n % 3600 / 60)).mono fun _ h ↦ h.elim).andThen_nil hread
    · rw [if_neg hm, List.append_nil]
      refine ((reads_padded 2 (n / 3600)).mono fun _ h ↦ h.elim).andThen_nil ?_
      have hread := hnil (readNatural.andThen fun minutes ↦ (Reader.branch colon readNatural (Reader.result 0)).map
        fun seconds ↦ (n / 3600 * 60 + minutes) * 60 + seconds) (n / 3600 * 60 * 60)
      have hexact : n / 3600 * 60 * 60 = n := by omega
      exact (congrArg (Reads _ _ []) hexact).mp hread

theorem reads_offset (offset : ℤ) : Reads (fun _ ↦ False) readOffset (offsetText offset) offset := by
  unfold readOffset offsetText
  split_ifs with hneg
  · have h := (reads_seconds offset.natAbs).map fun n : ℕ ↦ -(n : ℤ)
    rw [show -(offset.natAbs : ℤ) = offset by omega] at h
    exact Reads.branch_taken h
  · have h := (reads_seconds offset.natAbs).map fun n : ℕ ↦ (n : ℤ)
    rw [show (offset.natAbs : ℤ) = offset by omega] at h
    refine Reads.branch_skipped (s := 0x2b :: secondsText offset.natAbs) ?_ fun r _ ↦ Delimited.Ends.cons (by decide) _
    exact (Reads.symbol 0x2b).andThen_any (t := secondsText offset.natAbs) h

/-- The parts of a time of a day, of which the engine makes no negative ones. -/
def TimeOfDay : Type :=
  {ts : TimeStruct // 0 ≤ ts.hour.toInt ∧ (0 ≤ ts.min.toInt ∧ ts.min.toInt < 60) ∧
    (0 ≤ ts.sec.toInt ∧ ts.sec.toInt < 60) ∧ 0 ≤ ts.micros.toInt ∧ ts.micros.toInt < 1000000}

def TimeOfDay.parts (t : TimeOfDay) : (ℕ × ℕ × ℕ) × ℕ :=
  ((t.1.hour.toInt.toNat, t.1.min.toInt.toNat, t.1.sec.toInt.toNat), t.1.micros.toInt.toNat)

def timeTzText (t : (ℕ × ℕ × ℕ) × ℕ) (offset : ℤ) : List Byte :=
  clockText t.1.1 t.1.2.1 t.1.2.2 ++ fractionText t.2 6 ++ offsetText offset

theorem TimeOfDay.parts_inj {t t' : TimeOfDay} (h : t.parts = t'.parts) : t = t' := by
  obtain ⟨⟨hour, min, sec, micros⟩, hhour, hmin, hsec, hmicros⟩ := t
  obtain ⟨⟨hour', min', sec', micros'⟩, hhour', hmin', hsec', hmicros'⟩ := t'
  simp only [TimeOfDay.parts, Prod.mk.injEq] at h hhour hmin hsec hmicros hhour' hmin' hsec' hmicros'
  obtain ⟨⟨h₁, h₂, h₃⟩, h₄⟩ := h
  have e₁ : hour = hour' := Int8.toInt_inj.mp (by omega)
  have e₂ : min = min' := Int8.toInt_inj.mp (by omega)
  have e₃ : sec = sec' := Int8.toInt_inj.mp (by omega)
  have e₄ : micros = micros' := Int32.toInt_inj.mp (by omega)
  subst e₁ e₂ e₃ e₄
  rfl

theorem timeTzToString_eq (t : TimeOfDay) (offset : Int32) :
    timeTzToString t.1 offset = some (some (timeTzText t.parts offset.toInt)) ∧
      (timeTzText t.parts offset.toInt).length < 64 := by
  obtain ⟨⟨hour, min, sec, micros⟩, hhour, hmin, hsec, hmicros⟩ := t
  have hhour' := hour.toInt_lt
  obtain ⟨h, hh⟩ := Int.eq_ofNat_of_zero_le hhour
  obtain ⟨m, hm⟩ := Int.eq_ofNat_of_zero_le hmin.1
  obtain ⟨s, hs⟩ := Int.eq_ofNat_of_zero_le hsec.1
  obtain ⟨u, hu⟩ := Int.eq_ofNat_of_zero_le hmicros.1
  dsimp only at hh hm hs hu hhour' hmin hsec hmicros
  have hclock := length_clockText h m s (show 2 ≤ 3 by decide) (by omega) (by omega) (by omega)
  have hfrac : u < 10 ^ 6 := by omega
  have hfraction := length_fractionText u (show 0 < 6 by decide) hfrac
  have hoffset := length_secondsText (natAbs_le offset)
  unfold timeTzToString timeTzText TimeOfDay.parts
  dsimp only
  rw [hh, hm, hs, hu]
  simp only [Int.toNat_natCast]
  have hlen : (clockText h m s ++ fractionText u 6 ++ offsetText offset.toInt).length < 64 := by
    unfold offsetText
    rw [List.length_append, List.length_append, List.length_cons]
    omega
  rw [snprintf_eq (by rw [List.length_nil]; omega) (by omega)]
  show (appendFraction 64 ([] ++ clockText h m s) u 6).bind _ = _ ∧ _
  rw [List.nil_append, appendFraction_eq (by decide) (by decide) hfrac (by omega), Option.bind_some,
    formatTzOffset_eq offset (by rw [List.length_append]; omega), next_some, if_neg (by omega)]
  exact ⟨rfl, hlen⟩

theorem reads_timeTz (t : TimeOfDay) (offset : ℤ) :
    Reads (fun _ ↦ False) readTimeTz (timeTzText t.parts offset) (t.parts, offset) := by
  obtain ⟨⟨hour, min, sec, micros⟩, -, -, -, hmicros⟩ := t
  dsimp only at hmicros
  refine (reads_clock _ _ _ (show 0 < 6 by decide) (by
    unfold TimeOfDay.parts
    dsimp only
    omega)).andThen ((reads_offset offset).map _) fun r _ ↦ ?_
  unfold offsetText
  split_ifs
  · exact Delimited.Ends.cons ⟨by decide, by decide⟩ _
  · exact Delimited.Ends.cons ⟨by decide, by decide⟩ _

end Zones

end PdoDuckdb.Texts
