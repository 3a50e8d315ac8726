import Mathlib.Data.List.Basic
import Mathlib.Data.List.TakeWhile

namespace PdoDuckdb

/-- A byte of SQL text, `unsigned char` in the source. -/
abbrev Byte := UInt8

def ascii (s : String) : List Byte := s.toList.map Char.toUInt8

namespace Byte

abbrev newline : Byte := 0x0a
abbrev carriageReturn : Byte := 0x0d
abbrev space : Byte := 0x20
abbrev doubleQuote : Byte := 0x22
abbrev dollar : Byte := 0x24
abbrev quote : Byte := 0x27
abbrev leftParen : Byte := 0x28
abbrev rightParen : Byte := 0x29
abbrev star : Byte := 0x2a
abbrev comma : Byte := 0x2c
abbrev minus : Byte := 0x2d
abbrev slash : Byte := 0x2f
abbrev colon : Byte := 0x3a
abbrev semicolon : Byte := 0x3b
abbrev equals : Byte := 0x3d
abbrev question : Byte := 0x3f
abbrev openBracket : Byte := 0x5b
abbrev backslash : Byte := 0x5c
abbrev closeBracket : Byte := 0x5d
abbrev underscore : Byte := 0x5f
abbrev backtick : Byte := 0x60
abbrev openBrace : Byte := 0x7b
abbrev closeBrace : Byte := 0x7d

def isLetter (c : Byte) : Bool := (0x61 ≤ c && c ≤ 0x7a) || (0x41 ≤ c && c ≤ 0x5a)

def isDigit (c : Byte) : Bool := 0x30 ≤ c && c ≤ 0x39

def isHigh (c : Byte) : Bool := 0x80 ≤ c

/-- `' '`, `'\t'`, `'\n'`, `'\r'`, `'\f'` or `'\v'`. -/
def isBlank (c : Byte) : Bool :=
  c == 0x20 || c == 0x09 || c == 0x0a || c == 0x0d || c == 0x0c || c == 0x0b

/-- `e` or `E`, which open an escape string before a quote. -/
def isEscapeMark (c : Byte) : Bool := c == 0x65 || c == 0x45

/-- A decidable property of bytes, checked on all of them, sixteen at a time. -/
theorem forall_byte {p : Byte → Prop} [DecidablePred p]
    (h : ∀ i < 16, ∀ j < 16, decide (p (UInt8.ofNat (16 * i + j)))) (c : Byte) : p c := by
  have hhigh : c.toNat / 16 < 16 := by
    have := c.toNat_lt
    omega
  have hc := of_decide_eq_true (h (c.toNat / 16) hhigh (c.toNat % 16) (Nat.mod_lt _ (by decide)))
  rwa [Nat.div_add_mod, UInt8.ofNat_toNat] at hc

end Byte

open Byte

/-- `pdo_duckdb_sql_space_length`: the length of a Unicode space at the start
of the text, zero when there is none. -/
def spaceLength : List Byte → ℕ
  | a :: b :: c :: _ =>
    if a = 0xc2 ∧ b = 0xa0 then 2
    else if a = 0xe2 ∧ b = 0x80 ∧ ((0x80 ≤ c ∧ c ≤ 0x8a) ∨ c = 0xaf) then 3
    else if (a = 0xe2 ∧ b = 0x81 ∧ c = 0x9f) ∨ (a = 0xe3 ∧ b = 0x80 ∧ c = 0x80) ∨
        (a = 0xef ∧ b = 0xbb ∧ c = 0xbf) then 3
    else 0
  | [a, b] => if a = 0xc2 ∧ b = 0xa0 then 2 else 0
  | _ => 0

/-- The bytes of a quoted token from just after its opening quote to just after
the closing one, or to the end of the text. -/
def quotedLength (mark : Byte) (escapes : Bool) : List Byte → ℕ
  | [] => 0
  | [_] => 1
  | c :: d :: s =>
    if escapes && c == backslash then quotedLength mark escapes s + 2
    else if c == mark then
      if d == mark then quotedLength mark escapes s + 2 else 1
    else quotedLength mark escapes (d :: s) + 1

/-- The bytes of a `--` comment after the dashes, the line end left out. -/
def lineCommentLength (s : List Byte) : ℕ :=
  (s.takeWhile fun c ↦ c != carriageReturn && c != newline).length

def blockCommentLength : ℕ → List Byte → ℕ
  | 0, _ => 0
  | _ + 1, [] => 0
  | _ + 1, [_] => 1
  | depth + 1, c :: d :: s =>
    if c == slash && d == star then blockCommentLength (depth + 2) s + 2
    else if c == star && d == slash then blockCommentLength depth s + 2
    else blockCommentLength (depth + 1) (d :: s) + 1

/-- What the scanners step over between tokens. -/
inductive Trivia
  | blank
  | comment
deriving DecidableEq, Repr

def triviaStep : List Byte → Option (Trivia × ℕ)
  | [] => none
  | c :: s =>
    if spaceLength (c :: s) ≠ 0 then some (.blank, spaceLength (c :: s))
    else if isBlank c then some (.blank, 1)
    else if c = minus ∧ s.head? = some minus then
      some (.comment, lineCommentLength s.tail + 2)
    else if c = slash ∧ s.head? = some star then
      some (.comment, blockCommentLength 1 s.tail + 2)
    else none

def delimitedLength (delimiter : List Byte) : List Byte → ℕ
  | [] => 0
  | c :: s =>
    if delimiter.isPrefixOf (c :: s) then delimiter.length
    else delimitedLength delimiter s + 1

theorem spaceLength_le (s : List Byte) : spaceLength s ≤ s.length := by
  unfold spaceLength
  split
  · simp only [List.length_cons]
    split_ifs <;> omega
  · simp only [List.length_cons, List.length_nil]
    split_ifs <;> omega
  · omega

theorem quotedLength_le (mark : Byte) (escapes : Bool) (s : List Byte) :
    quotedLength mark escapes s ≤ s.length := by
  fun_induction quotedLength mark escapes s <;> simp_all

theorem quotedLength_pos (mark : Byte) (escapes : Bool) {s : List Byte} (h : s ≠ []) :
    0 < quotedLength mark escapes s := by
  fun_cases quotedLength mark escapes s <;> simp_all

theorem lineCommentLength_le (s : List Byte) : lineCommentLength s ≤ s.length :=
  (List.takeWhile_prefix _).length_le

theorem blockCommentLength_le (depth : ℕ) (s : List Byte) :
    blockCommentLength depth s ≤ s.length := by
  fun_induction blockCommentLength depth s <;> simp_all

theorem triviaStep_pos {s : List Byte} {t : Trivia} {n : ℕ} (h : triviaStep s = some (t, n)) :
    0 < n := by
  unfold triviaStep at h
  split at h
  · cases h
  · split_ifs at h <;> simp only [Option.some.injEq, Prod.mk.injEq] at h <;> omega

theorem triviaStep_le {s : List Byte} {t : Trivia} {n : ℕ} (h : triviaStep s = some (t, n)) :
    n ≤ s.length := by
  unfold triviaStep at h
  split at h
  · cases h
  · next c s =>
    have hspace := spaceLength_le (c :: s)
    have hline := lineCommentLength_le s.tail
    have hblock := blockCommentLength_le 1 s.tail
    cases s <;> grind

theorem delimitedLength_le (delimiter s : List Byte) :
    delimitedLength delimiter s ≤ s.length := by
  induction s with
  | nil => rfl
  | cons c s ih =>
    simp only [delimitedLength]
    split_ifs with hp
    · exact (List.isPrefixOf_iff_prefix.mp hp).length_le
    · simpa using ih

end PdoDuckdb
