import PdoDuckdb.Bytes
import PdoDuckdb.Library.Scanning

namespace PdoDuckdb.Transaction

open Byte Library.Scanning

/-- `pdo_duckdb_sql_token_kind`. -/
inductive TokenKind
  | eof
  | word
  | quotedWord
  | leftParen
  | rightParen
  | comma
  | semicolon
  | other
deriving DecidableEq, Repr

/-- `pdo_duckdb_sql_token`; only words carry text. -/
structure Token where
  kind : TokenKind
  text : List Byte := []
deriving DecidableEq, Repr

/-- `pdo_duckdb_sql_word_start`. -/
def wordStart (c : Byte) : Bool := isLetter c || c == underscore

/-- `pdo_duckdb_sql_word_continue`. -/
def wordContinue (c : Byte) : Bool := wordStart c || isDigit c || c == dollar

/-- The loop over a dollar-quote tag; digits count after the first byte. -/
def dollarTagLength : Bool → List Byte → ℕ
  | _, [] => 0
  | inside, c :: s =>
    if isLetter c || c == underscore || isHigh c || (inside && isDigit c) then
      dollarTagLength true s + 1
    else 0

/-- `pdo_duckdb_sql_skip_dollar_quote`, from the first `$` on; zero where the
source returns `false`. -/
def skipDollarQuote (s : List Byte) : ℕ :=
  let tagEnd := dollarTagLength false s.tail + 1
  if (s.drop tagEnd).head? = some dollar then
    delimitedLength (s.take (tagEnd + 1)) (s.drop (tagEnd + 1)) + (tagEnd + 1)
  else 0

/-- `pdo_duckdb_sql_skip_quoted`, from the opening quote on. -/
def skipQuoted (mark : Byte) (escapes : Bool) (s : List Byte) : ℕ :=
  quotedLength mark escapes s.tail + 1

/-- The text of a double-quoted word up to its closing quote, `none` when the
quote stays open. -/
def quotedWordLength : List Byte → Option ℕ
  | [] => none
  | [c] => if c == doubleQuote then some 0 else none
  | c :: d :: s =>
    if c == doubleQuote then
      if d == doubleQuote then (quotedWordLength s).map (· + 2) else some 0
    else (quotedWordLength (d :: s)).map (· + 1)

inductive Lex
  | blank
  | comment
  | escapeString
  | string
  | quotedWord (length : Option ℕ)
  | dollarQuote
  | word
  | symbol (c : Byte)
deriving DecidableEq, Repr

/-- One turn of the loop of `pdo_duckdb_sql_next_token` at a byte that starts no
trivia. -/
def lexToken (c : Byte) (s : List Byte) : Lex × ℕ :=
  if isEscapeMark c ∧ s.head? = some quote then (.escapeString, skipQuoted quote true s + 1)
  else if c = quote then (.string, skipQuoted quote false (c :: s))
  else if c = doubleQuote then
    match quotedWordLength s with
    | some n => (.quotedWord (some n), n + 2)
    | none => (.quotedWord none, s.length + 1)
  else if c = dollar ∧ skipDollarQuote (c :: s) ≠ 0 then
    (.dollarQuote, skipDollarQuote (c :: s))
  else if wordStart c then (.word, (s.takeWhile wordContinue).length + 1)
  else (.symbol c, 1)

def Trivia.lex : Trivia → Lex
  | .blank => .blank
  | .comment => .comment

/-- One turn of the loop of `pdo_duckdb_sql_next_token`. -/
def lexTurn (_ : Option Byte) : List Byte → Lex × ℕ
  | [] => (.symbol 0, 0)
  | c :: s =>
    match triviaStep (c :: s) with
    | some (t, n) => (Trivia.lex t, n)
    | none => lexToken c s

theorem skipDollarQuote_le (s : List Byte) : skipDollarQuote s ≤ s.length := by
  unfold skipDollarQuote
  dsimp only
  split_ifs with h
  · have hlen : dollarTagLength false s.tail + 1 < s.length := by
      by_contra hn
      rw [List.drop_eq_nil_of_le (by omega)] at h
      cases h
    have hle := delimitedLength_le (s.take (dollarTagLength false s.tail + 1 + 1))
      (s.drop (dollarTagLength false s.tail + 1 + 1))
    simp only [List.length_drop] at hle
    omega
  · omega

theorem quotedWordLength_lt {s : List Byte} {n : ℕ} (h : quotedWordLength s = some n) :
    n < s.length := by
  fun_induction quotedWordLength s generalizing n <;> grind [Option.map_eq_some_iff]

theorem lexToken_pos (c : Byte) (s : List Byte) : 0 < (lexToken c s).2 := by
  have hquoted : 0 < skipQuoted quote false (c :: s) := Nat.succ_pos _
  unfold lexToken
  split_ifs with h₁ h₂ h₃ h₄ <;> (try dsimp only) <;> try omega
  cases quotedWordLength s <;> exact Nat.succ_pos _

theorem lexToken_le (c : Byte) (s : List Byte) : (lexToken c s).2 ≤ s.length + 1 := by
  have hquoted := quotedLength_le quote false s
  have hdollar := skipDollarQuote_le (c :: s)
  have hword := (List.takeWhile_prefix wordContinue (l := s)).length_le
  simp only [List.length_cons] at hdollar
  unfold lexToken
  split_ifs with h₁ h₂ h₃ h₄ h₅ <;> (try dsimp only)
  · have hescape := quotedLength_le quote true s.tail
    cases s with
    | nil => cases h₁.2
    | cons d s =>
      simp only [skipQuoted, List.tail_cons, List.length_cons] at *
      omega
  · simpa [skipQuoted] using hquoted
  · cases h : quotedWordLength s with
    | none => exact Nat.le_refl _
    | some n =>
      have hn := quotedWordLength_lt h
      dsimp only
      omega
  · exact hdollar
  · omega
  · omega

def tokenizer : Scanner Byte Lex where
  step := lexTurn
  pos := fun _ c s ↦ by
    simp only [lexTurn]
    cases h : triviaStep (c :: s) with
    | none => exact lexToken_pos c s
    | some r => exact triviaStep_pos h
  le := fun _ s ↦ by
    cases s with
    | nil => simp [lexTurn]
    | cons c s =>
      simp only [lexTurn]
      cases h : triviaStep (c :: s) with
      | none => exact lexToken_le c s
      | some r => exact triviaStep_le h

def token? (l : Lexeme Byte Lex) : Option Token :=
  match l.kind with
  | .blank | .comment => none
  | .word => some ⟨.word, l.text⟩
  | .quotedWord (some n) => some ⟨.quotedWord, (l.text.drop 1).take n⟩
  | .symbol c =>
    if c = leftParen then some ⟨.leftParen, []⟩
    else if c = rightParen then some ⟨.rightParen, []⟩
    else if c = comma then some ⟨.comma, []⟩
    else if c = semicolon then some ⟨.semicolon, []⟩
    else some ⟨.other, []⟩
  | _ => some ⟨.other, []⟩

/-- The tokens successive calls of `pdo_duckdb_sql_next_token` return before
`EOF`. -/
def tokens (sql : List Byte) : List Token := (tokenizer.scan sql).filterMap token?

/-- `pdo_duckdb_sql_next_token`, the scanner being the tokens still to come. -/
def nextToken : List Token → Token × List Token
  | [] => (⟨.eof, []⟩, [])
  | t :: ts => (t, ts)

@[simp] theorem nextToken_cons (t : Token) (ts : List Token) : nextToken (t :: ts) = (t, ts) := rfl

theorem token?_kind_ne_eof {l : Lexeme Byte Lex} {t : Token} (h : token? l = some t) :
    t.kind ≠ .eof := by
  unfold token? at h
  split at h <;> (try split_ifs at h) <;> cases h <;> simp

theorem tokens_kind_ne_eof (sql : List Byte) : ∀ t ∈ tokens sql, t.kind ≠ .eof := by
  intro t ht
  obtain ⟨l, -, hl⟩ := List.mem_filterMap.mp ht
  exact token?_kind_ne_eof hl

end PdoDuckdb.Transaction
