import PdoDuckdb.Bytes
import PdoDuckdb.Library.Scanning

namespace PdoDuckdb.Sql

open Byte Library.Scanning

/-- `pdo_duckdb_sql_identifier_start`. -/
def identifierStart (c : Byte) : Bool := isLetter c || c == underscore || isHigh c

/-- `pdo_duckdb_sql_identifier_continue`. -/
def identifierContinue (c : Byte) : Bool := identifierStart c || isDigit c || c == dollar

/-- `pdo_duckdb_sql_parameter_char`. -/
def parameterChar (c : Byte) : Bool := isLetter c || isDigit c || c == underscore

def nameChar (c : Byte) : Bool := parameterChar c || isHigh c

def tagContinue (c : Byte) : Bool := identifierStart c || isDigit c

/-- `pdo_duckdb_sql_skip_string`, from the opening quote on. -/
def skipString (mark : Byte) (escapes : Bool) (s : List Byte) : ℕ :=
  quotedLength mark escapes s.tail + 1

/-- `pdo_duckdb_sql_skip_trivia`: the loop stops at the first byte that starts
neither a blank nor a comment. -/
def skipTriviaLoop : ℕ → List Byte → ℕ
  | 0, _ => 0
  | fuel + 1, s =>
    match triviaStep s with
    | some (_, n) => skipTriviaLoop fuel (s.drop n) + n
    | none => 0

def skipTrivia (s : List Byte) : ℕ := skipTriviaLoop s.length s

/-- The tag of `$tag$` after its first `$`, `none` where no tag can start. -/
def tagLength : List Byte → Option ℕ
  | [] => none
  | c :: s =>
    if c = dollar then some 0
    else if identifierStart c then some ((s.takeWhile tagContinue).length + 1)
    else none

/-- `pdo_duckdb_sql_skip_dollar_string`, from the first `$` on; zero where the
source returns `start`. -/
def skipDollarString (s : List Byte) : ℕ :=
  match tagLength s.tail with
  | none => 0
  | some n =>
    if (s.drop (n + 1)).head? = some dollar then
      delimitedLength (s.take (n + 2)) (s.drop (n + 2)) + (n + 2)
    else 0

/-- The digits of a numbered parameter; an underscore belongs to the number only
between two digits. -/
def numberLength : Bool → List Byte → ℕ
  | _, [] => 0
  | afterDigit, c :: s =>
    if isDigit c then numberLength true s + 1
    else if c == underscore && afterDigit && s.head?.any isDigit then numberLength false s + 1
    else 0

/-- What one turn of the planner's loop finds. The offsets of a native
parameter's name count from its `$`. -/
inductive Piece
  | blank
  | comment
  | semicolon
  | escapeString
  | quoted (mark : Byte)
  | dollarString
  | dollar (mark : Option Byte)
  | native (numeric : Bool) (nameStart nameLength : ℕ) (mark : Option Byte)
  | identifier
  | cast
  | named
  | questions
  | positional
  | other
deriving DecidableEq, Repr

/-- Backticks quote identifiers only under DuckDB 2.0. -/
def identifierQuote (v2 : Bool) (c : Byte) : Bool := c == doubleQuote || (v2 && c == backtick)

/-- The trivia between a `$` and its name. A high byte next to the `$` belongs to the
name, even where it starts a Unicode space. -/
def nameLead (s : List Byte) : ℕ := if s.head?.any isHigh then 0 else skipTrivia s

/-- The turn at a `$` that opens no dollar string: the name behind it. -/
def parameterTurn (v2 : Bool) (s : List Byte) : Piece × ℕ :=
  let lead := nameLead s
  let name := s.drop lead
  match name with
  | [] => (.dollar none, lead + 1)
  | c :: _ =>
    if isDigit c then
      let length := numberLength false name
      (.native true (lead + 1) length none, lead + length + 1)
    else if identifierQuote v2 c then
      let reach := skipString c false name
      -- The source drops the last byte whenever it is a quote, closing or not.
      let length := if (name.take reach).getLast? = some c then reach - 2 else reach - 1
      (if length = 0 then .dollar (some c) else .native false (lead + 2) length (some c),
        lead + reach + 1)
    else
      let length := (name.takeWhile nameChar).length
      (if length = 0 then .dollar none else .native false (lead + 1) length none, lead + length + 1)

/-- One turn of the loop of `pdo_duckdb_sql_plan_create` at a byte that starts
no trivia. -/
def tokenTurn (v2 : Bool) (before : Option Byte) (c : Byte) (s : List Byte) : Piece × ℕ :=
  if c = semicolon then (.semicolon, 1)
  else if isEscapeMark c ∧ s.head? = some quote then
    (.escapeString, skipString quote true s + 1)
  else if c = quote ∨ identifierQuote v2 c then (.quoted c, skipString c false (c :: s))
  else if c = Byte.dollar then
    if skipDollarString (c :: s) ≠ 0 then (.dollarString, skipDollarString (c :: s))
    else parameterTurn v2 s
  else if identifierStart c then (.identifier, (s.takeWhile identifierContinue).length + 1)
  else if c = colon ∧ s.head? = some colon then (.cast, (s.takeWhile (· == colon)).length + 1)
  else if c = colon ∧ s.head?.any parameterChar ∧ ¬before.any identifierContinue then
    (.named, (s.takeWhile parameterChar).length + 1)
  else if c = question ∧ s.head? = some question then
    (.questions, (s.takeWhile (· == question)).length + 1)
  else if c = question then (.positional, 1)
  else (.other, 1)

def Trivia.piece : Trivia → Piece
  | .blank => .blank
  | .comment => .comment

/-- One turn of the loop of `pdo_duckdb_sql_plan_create`. -/
def turn (v2 : Bool) (before : Option Byte) : List Byte → Piece × ℕ
  | [] => (.other, 0)
  | c :: s =>
    match triviaStep (c :: s) with
    | some (t, n) => (Trivia.piece t, n)
    | none => tokenTurn v2 before c s

theorem skipString_le (mark : Byte) (escapes : Bool) {s : List Byte} (h : s ≠ []) :
    skipString mark escapes s ≤ s.length := by
  have hq := quotedLength_le mark escapes s.tail
  obtain ⟨c, t, rfl⟩ := List.exists_cons_of_ne_nil h
  simpa [skipString] using hq

theorem skipTriviaLoop_le (fuel : ℕ) (s : List Byte) : skipTriviaLoop fuel s ≤ s.length := by
  induction fuel generalizing s with
  | zero => simp [skipTriviaLoop]
  | succ fuel ih =>
    simp only [skipTriviaLoop]
    cases h : triviaStep s with
    | none => simp
    | some r =>
      have hle := triviaStep_le h
      have hrest := ih (s.drop r.2)
      simp only [List.length_drop] at hrest ⊢
      omega

theorem skipTrivia_le (s : List Byte) : skipTrivia s ≤ s.length := skipTriviaLoop_le _ s

theorem skipDollarString_le (s : List Byte) : skipDollarString s ≤ s.length := by
  unfold skipDollarString
  split
  · omega
  · next n h =>
    split_ifs with hd
    · have hlen : n + 1 < s.length := by
        by_contra hn
        rw [List.drop_eq_nil_of_le (by omega)] at hd
        cases hd
      have hle := delimitedLength_le (s.take (n + 2)) (s.drop (n + 2))
      simp only [List.length_drop] at hle
      omega
    · omega

theorem numberLength_le (afterDigit : Bool) (s : List Byte) :
    numberLength afterDigit s ≤ s.length := by
  induction s generalizing afterDigit with
  | nil => simp [numberLength]
  | cons c s ih =>
    have ht := ih true
    have hf := ih false
    simp only [numberLength, List.length_cons]
    split_ifs <;> omega

theorem nameLead_le (s : List Byte) : nameLead s ≤ s.length := by
  unfold nameLead
  split_ifs
  · exact Nat.zero_le _
  · exact skipTrivia_le s

theorem parameterTurn_le (v2 : Bool) (s : List Byte) :
    (parameterTurn v2 s).2 ≤ s.length + 1 := by
  unfold parameterTurn
  have hlead := nameLead_le s
  generalize nameLead s = lead at hlead
  have hdrop : (s.drop lead).length = s.length - lead := List.length_drop
  dsimp only
  cases hname : s.drop lead with
  | nil => exact Nat.succ_le_succ hlead
  | cons c rest =>
    rw [hname] at hdrop
    have hnum := numberLength_le false (c :: rest)
    have hquote := skipString_le c false (List.cons_ne_nil c rest)
    have hchars := (List.takeWhile_prefix nameChar (l := c :: rest)).length_le
    dsimp only
    split_ifs <;> simp only <;> omega

theorem parameterTurn_pos (v2 : Bool) (s : List Byte) : 0 < (parameterTurn v2 s).2 := by
  unfold parameterTurn
  dsimp only
  split
  · exact Nat.succ_pos _
  · split_ifs <;> exact Nat.succ_pos _

/-- The turns at a byte that starts no trivia, one case a branch of the loop. -/
@[elab_as_elim]
theorem tokenTurn_cases {v2 : Bool} {before : Option Byte} {c : Byte} {s : List Byte}
    {motive : Piece × ℕ → Prop} (semicolon : c = semicolon → motive (.semicolon, 1))
    (escapeString : isEscapeMark c → s.head? = some quote →
      motive (.escapeString, skipString quote true s + 1))
    (quoted : c = quote ∨ identifierQuote v2 c → motive (.quoted c, skipString c false (c :: s)))
    (dollarString : c = dollar → skipDollarString (c :: s) ≠ 0 →
      motive (.dollarString, skipDollarString (c :: s)))
    (parameter : c = dollar → skipDollarString (c :: s) = 0 → motive (parameterTurn v2 s))
    (identifier : identifierStart c →
      motive (.identifier, (s.takeWhile identifierContinue).length + 1))
    (cast : c = colon → motive (.cast, (s.takeWhile (· == colon)).length + 1))
    (named : c = colon → motive (.named, (s.takeWhile parameterChar).length + 1))
    (questions : c = question → motive (.questions, (s.takeWhile (· == question)).length + 1))
    (positional : c = question → motive (.positional, 1))
    (other : ¬(c = quote ∨ identifierQuote v2 c) → motive (.other, 1)) :
    motive (tokenTurn v2 before c s) :=
  iteInduction semicolon fun _ ↦
  iteInduction (fun h ↦ escapeString h.1 h.2) fun _ ↦
  iteInduction quoted fun hquote ↦
  iteInduction (fun h ↦ iteInduction (dollarString h) fun hs ↦ parameter h (not_not.mp hs)) fun _ ↦
  iteInduction identifier fun _ ↦
  iteInduction (fun h ↦ cast h.1) fun _ ↦
  iteInduction (fun h ↦ named h.1) fun _ ↦
  iteInduction (fun h ↦ questions h.1) fun _ ↦
  iteInduction positional fun _ ↦ other hquote

theorem tokenTurn_pos (v2 : Bool) (before : Option Byte) (c : Byte) (s : List Byte) :
    0 < (tokenTurn v2 before c s).2 := by
  apply tokenTurn_cases (motive := fun r ↦ 0 < r.2)
  case dollarString => exact fun _ h ↦ Nat.pos_of_ne_zero h
  case parameter => exact fun _ _ ↦ parameterTurn_pos v2 s
  all_goals
    intros
    exact Nat.succ_pos _

theorem tokenTurn_le (v2 : Bool) (before : Option Byte) (c : Byte) (s : List Byte) :
    (tokenTurn v2 before c s).2 ≤ s.length + 1 := by
  have hlen (p : Byte → Bool) : (s.takeWhile p).length + 1 ≤ s.length + 1 :=
    Nat.succ_le_succ (List.takeWhile_prefix p).length_le
  apply tokenTurn_cases (motive := fun r ↦ r.2 ≤ s.length + 1)
  case escapeString =>
    intro _ h
    have hs : s ≠ [] := by
      rintro rfl
      cases h
    exact Nat.succ_le_succ (skipString_le quote true hs)
  case quoted => exact fun _ ↦ skipString_le c false (List.cons_ne_nil c s)
  case dollarString => exact fun _ _ ↦ skipDollarString_le (c :: s)
  case parameter => exact fun _ _ ↦ parameterTurn_le v2 s
  case identifier => exact fun _ ↦ hlen _
  case cast => exact fun _ ↦ hlen _
  case named => exact fun _ ↦ hlen _
  case questions => exact fun _ ↦ hlen _
  all_goals
    intros
    exact Nat.le_add_left 1 s.length

theorem turn_pos (v2 : Bool) (before : Option Byte) (c : Byte) (s : List Byte) :
    0 < (turn v2 before (c :: s)).2 := by
  simp only [turn]
  cases h : triviaStep (c :: s) with
  | none => exact tokenTurn_pos v2 before c s
  | some r => exact triviaStep_pos h

theorem turn_le (v2 : Bool) (before : Option Byte) (s : List Byte) :
    (turn v2 before s).2 ≤ s.length := by
  cases s with
  | nil => simp [turn]
  | cons c s =>
    simp only [turn]
    cases h : triviaStep (c :: s) with
    | none => exact tokenTurn_le v2 before c s
    | some r => exact triviaStep_le h

/-- The planner's scanner: the turns of the loop, whatever the plan built so
far. -/
def planner (v2 : Bool) : Scanner Byte Piece where
  step := turn v2
  pos := turn_pos v2
  le := turn_le v2

end PdoDuckdb.Sql
