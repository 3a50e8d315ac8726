import PdoDuckdb.Texts.Numbers

namespace PdoDuckdb.Texts

open Byte Library Decimals Nested

section Buffers

/-- What a renderer has printed: nothing at all where it writes outside its buffer or a
step overflows, `some none` where it gives up. -/
abbrev Printed := Option (Option (List Byte))

def Printed.next (p : Printed) (f : List Byte → Printed) : Printed :=
  p.bind fun
    | none => some none
    | some out => f out

/-- A write at the end of what is in a buffer of `size` bytes. -/
def write (size : ℕ) (buf s : List Byte) : Option (List Byte) :=
  if buf.length + s.length ≤ size then some (buf ++ s) else none

/-- `snprintf` at the end of what is in a buffer, told that `room` bytes are left. A text
with its NUL that does not fit there is cut. -/
def snprintf (size room : ℕ) (buf text : List Byte) : Printed :=
  if size < buf.length + min room (text.length + 1) then none
  else some (if text.length < room then some (buf ++ text) else none)

/-- A step of `int64_t`, which must not overflow. -/
def int64 (n : ℤ) : Option ℤ :=
  if -0x8000000000000000 ≤ n ∧ n < 0x8000000000000000 then some n else none

/-- `pdo_duckdb_append_fraction`, which prints to 10 bytes of its own. -/
def appendFraction (size : ℕ) (buf : List Byte) (fraction : ℤ) (width : ℕ) : Option (List Byte) :=
  if fraction = 0 then some buf
  else
    (snprintf 10 10 [] (padded width fraction)).join.bind fun frac ↦
      (write size buf [0x2e]).bind fun buf ↦ write size buf ((frac.take width).rdropWhile (· == 0x30))

/-- `%02d:%02d:%02d`. -/
def clockText (hour min sec : ℤ) : List Byte :=
  padded 2 hour ++ colon :: (padded 2 min ++ colon :: padded 2 sec)

variable {size room width n k : ℕ} {buf text out s : List Byte}

theorem write_eq (h : buf.length + s.length ≤ size) : write size buf s = some (buf ++ s) := if_pos h

theorem snprintf_eq (h : buf.length + text.length < size) (hroom : text.length < room) :
    snprintf size room buf text = some (some (buf ++ text)) := by
  unfold snprintf
  rw [if_neg (by omega), if_pos hroom]

theorem next_some (f : List Byte → Printed) : Printed.next (some (some out)) f = f out := rfl

theorem padded_natCast (width n : ℕ) : padded width (n : ℤ) = (decimal n).leftpad width 0x30 := by
  unfold padded
  rw [if_neg (by omega), Int.natAbs_natCast]

theorem length_padded_natCast (hk : 0 < k) (h : n < 10 ^ k) : (padded width (n : ℤ)).length ≤ max width k := by
  have hlen := length_decimal_le hk h
  rw [padded_natCast, List.leftpad, List.length_append, List.length_replicate]
  omega

theorem length_padded_eq (hk : 0 < width) (h : n < 10 ^ width) : (padded width (n : ℤ)).length = width := by
  have hlen := length_decimal_le hk h
  rw [padded_natCast, List.leftpad, List.length_append, List.length_replicate]
  omega

theorem padded_digits (width n : ℕ) : ∀ c ∈ padded width (n : ℤ), isDigit c := by
  intro c hc
  rw [padded_natCast] at hc
  exact isDigit_of_mem_leftpad (fun _ h ↦ isDigit_of_mem_decimal h) hc

theorem padded_ne_nil (width n : ℕ) : padded width (n : ℤ) ≠ [] := by
  rw [padded_natCast, List.leftpad]
  exact List.append_ne_nil_of_right_ne_nil _ (decimal_ne_nil n)

/-- The point and the digits of a fraction up to the last that is not 0. -/
def fractionText (fraction width : ℕ) : List Byte :=
  if fraction = 0 then [] else 0x2e :: (padded width (fraction : ℤ)).rdropWhile (· == 0x30)

theorem length_fractionText (n : ℕ) (hk : 0 < width) (h : n < 10 ^ width) : (fractionText n width).length ≤ width + 1 := by
  unfold fractionText
  split_ifs with hn
  · exact Nat.zero_le _
  · have hlen := (List.rdropWhile_prefix (· == 0x30) (padded width (n : ℤ))).length_le
    rw [length_padded_eq hk h] at hlen
    rw [List.length_cons]
    omega

theorem appendFraction_eq (hk : 0 < width) (hwidth : width < 10) (h : n < 10 ^ width)
    (hsize : buf.length + width + 1 ≤ size) :
    appendFraction size buf (n : ℤ) width = some (buf ++ fractionText n width) := by
  have hlen := length_padded_eq hk h
  have htext := length_fractionText n hk h
  unfold appendFraction
  unfold fractionText at htext ⊢
  by_cases hn : n = 0
  · rw [if_pos (by omega), if_pos hn, List.append_nil]
  · have htake : (padded width (n : ℤ)).take width = padded width (n : ℤ) :=
      List.take_of_length_le hlen.le
    rw [if_neg hn, List.length_cons] at htext
    rw [if_neg (by omega), if_neg hn, snprintf_eq (by rw [hlen]; exact (Nat.zero_add _).trans_lt hwidth)
      (by omega)]
    show (write size buf [0x2e]).bind _ = _
    rw [write_eq (by rw [List.length_singleton]; omega), Option.bind_some, List.nil_append, htake, write_eq,
      List.append_assoc]
    · rfl
    · rw [List.length_append, List.length_singleton]
      omega

theorem length_clockText (hour min sec : ℕ) (hk : 2 ≤ k) (hhour : hour < 10 ^ k) (hmin : min < 60) (hsec : sec < 60) :
    (clockText hour min sec).length ≤ k + 6 := by
  have hhours : (padded 2 (hour : ℤ)).length ≤ max 2 k := length_padded_natCast (by omega) hhour
  have hmins : (padded 2 (min : ℤ)).length = 2 := length_padded_eq (by decide) (by omega)
  have hsecs : (padded 2 (sec : ℤ)).length = 2 := length_padded_eq (by decide) (by omega)
  unfold clockText
  rw [List.length_append, List.length_cons, List.length_append, List.length_cons, hmins, hsecs]
  omega

end Buffers

section Readers

variable {width n : ℕ}

/-- A fraction of `width` digits, of which zeros at the end may be left out. -/
def readFraction (width : ℕ) : Reader Byte ℕ :=
  Reader.branch 0x2e
    ((Reader.span isDigit).map fun digits ↦ digitsValue digits * 10 ^ (width - digits.length)) (Reader.result 0)

def readHms : Reader Byte (ℕ × ℕ × ℕ) :=
  readNatural.andThen fun hour ↦ (Reader.symbol colon).andThen fun _ ↦
    readNatural.andThen fun min ↦ (Reader.symbol colon).andThen fun _ ↦
      readNatural.map fun sec ↦ (hour, min, sec)

def readClock (width : ℕ) : Reader Byte ((ℕ × ℕ × ℕ) × ℕ) :=
  readHms.andThen fun t ↦ (readFraction width).map fun fraction ↦ (t, fraction)

def AfterClock (c : Byte) : Prop := ¬ isDigit c ∧ c ≠ 0x2e

theorem reads_padded (width n : ℕ) : Reads (fun c ↦ ¬ isDigit c) readNatural (padded width (n : ℤ)) n := by
  have h := reads_natural (padded_ne_nil width n) (padded_digits width n)
  rwa [padded_natCast, digitsValue_leftpad, digitsValue_decimal] at h

/-- A point or a colon ends a number. -/
theorem ends_cons_of_ne {a : Byte} (ha : isDigit a = false) (s : List Byte) :
    Delimited.Ends (fun c ↦ ¬ isDigit c) (a :: s) :=
  Delimited.Ends.cons (by simp [ha]) s

theorem reads_numberColon {D : Byte → Prop} {β : Type} {f : ℕ → Reader Byte β} {s : List Byte} {b : β} (n : ℕ)
    (hf : Reads D (f n) s b) :
    Reads D (readNatural.andThen fun n ↦ (Reader.symbol colon).andThen fun _ ↦ f n)
      (padded 2 (n : ℤ) ++ colon :: s) b := by
  refine (reads_padded 2 n).andThen (t := colon :: s) ?_ fun r _ ↦ ends_cons_of_ne rfl _
  exact (Reads.symbol colon).andThen_any (t := s) hf

theorem reads_hms (hour min sec : ℕ) :
    Reads (fun c ↦ ¬ isDigit c) readHms (clockText hour min sec) (hour, min, sec) := by
  apply reads_numberColon
  apply reads_numberColon
  exact (reads_padded 2 sec).map fun sec ↦ (hour, min, sec)

/-- The digits that are kept, and the zeros that are not. -/
theorem kept_zeros (s : List Byte) :
    ∃ k, s = s.rdropWhile (· == 0x30) ++ List.replicate k 0x30 := by
  induction s using List.reverseRecOn with
  | nil => exact ⟨0, rfl⟩
  | append_singleton s c ih =>
    by_cases hc : c = 0x30
    · obtain ⟨k, hk⟩ := ih
      refine ⟨k + 1, ?_⟩
      rw [List.rdropWhile_concat_pos _ _ _ (by simp [hc]), List.replicate_succ', ← List.append_assoc, ← hk, hc]
    · exact ⟨0, by rw [List.rdropWhile_concat_neg _ _ _ (by simp [hc])]; simp⟩

theorem reads_fraction (hk : 0 < width) (h : n < 10 ^ width) :
    Reads AfterClock (readFraction width) (fractionText n width) n := by
  unfold fractionText readFraction
  split_ifs with hn
  · subst hn
    exact Reads.branch_skipped (Reads.result 0) fun r hr c hc ↦ (hr c hc).2
  · obtain ⟨k, hsplit⟩ := kept_zeros (padded width (n : ℤ))
    have hdigits : ∀ c ∈ (padded width (n : ℤ)).rdropWhile (· == 0x30), isDigit c := fun c hc ↦
      padded_digits width n c ((List.rdropWhile_prefix _ _).subset hc)
    have hvalue : digitsValue (padded width (n : ℤ)) = n := by
      rw [padded_natCast, digitsValue_leftpad, digitsValue_decimal]
    have hlen := length_padded_eq hk h
    generalize (padded width (n : ℤ)).rdropWhile (· == 0x30) = kept at hsplit hdigits ⊢
    rw [hsplit, digitsValue_rightpad] at hvalue
    rw [hsplit, List.length_append, List.length_replicate] at hlen
    have hread : Reads AfterClock (Reader.span isDigit) kept kept := (Reads.span hdigits).mono fun _ hc ↦ hc.1
    have hmap := hread.map fun digits ↦ digitsValue digits * 10 ^ (width - digits.length)
    rw [← hlen, Nat.add_sub_cancel_left, hvalue, hlen] at hmap
    exact Reads.branch_taken hmap

theorem reads_clock (hour min sec : ℕ) (hk : 0 < width) (h : n < 10 ^ width) :
    Reads AfterClock (readClock width) (clockText hour min sec ++ fractionText n width) ((hour, min, sec), n) := by
  refine (reads_hms hour min sec).andThen ((reads_fraction hk h).map _) fun r hr ↦ ?_
  unfold fractionText
  split_ifs with hn
  · exact fun c hc ↦ (hr c hc).1
  · exact ends_cons_of_ne rfl _

end Readers

end PdoDuckdb.Texts
