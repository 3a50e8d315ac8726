import PdoDuckdb.Transaction.Tokens
import PdoDuckdb.Library.Nesting

namespace PdoDuckdb.Transaction

open Library.Nesting

/-- `pdo_duckdb_transaction_effect`. -/
inductive Effect
  | none
  | opens
  | closes
deriving DecidableEq, Repr

/-- The bits `pdo_duckdb_sql_transaction_flags` returns. -/
structure Flags where
  direct : Bool := false
  explainAnalyze : Bool := false
  multiple : Bool := false
deriving DecidableEq, Repr

def Flags.union (f g : Flags) : Flags :=
  ⟨f.direct || g.direct, f.explainAnalyze || g.explainAnalyze, f.multiple || g.multiple⟩

def asciiUpper (c : Byte) : Byte := if 0x61 ≤ c && c ≤ 0x7a then c - 0x20 else c

/-- `pdo_duckdb_ascii_keyword`. -/
def asciiKeyword (token : List Byte) (keyword : String) : Bool :=
  token.map asciiUpper == ascii keyword

namespace Token

/-- `pdo_duckdb_sql_token_is_keyword`. -/
def isKeyword (t : Token) (keyword : String) (allowQuoted : Bool) : Bool :=
  (t.kind == .word || (allowQuoted && t.kind == .quotedWord)) && asciiKeyword t.text keyword

/-- `pdo_duckdb_sql_token_transaction_effect`. -/
def effect (t : Token) : Effect :=
  if t.isKeyword "BEGIN" false || t.isKeyword "START" false then .opens
  else if t.isKeyword "COMMIT" false || t.isKeyword "END" false ||
      t.isKeyword "ROLLBACK" false || t.isKeyword "ABORT" false then .closes
  else .none

def isExplain (t : Token) : Bool := t.isKeyword "EXPLAIN" false

def isAnalyze (t : Token) (allowQuoted : Bool) : Bool :=
  t.isKeyword "ANALYZE" allowQuoted || t.isKeyword "ANALYSE" allowQuoted

def mark (t : Token) : Mark :=
  match t.kind with
  | .leftParen => .left
  | .rightParen => .right
  | .semicolon => .separator
  | _ => .plain

end Token

/-- The option loop of `pdo_duckdb_sql_scan_explain`: the token it leaves with,
whether it has seen ANALYZE, and the tokens after that one. -/
def scanOptions (depth : ℕ) (optionStart analyze : Bool) : List Token → Token × Bool × List Token
  | [] => (⟨.eof, []⟩, analyze, [])
  | t :: ts =>
    match t.kind with
    | .eof | .semicolon => (t, analyze, ts)
    | .leftParen => scanOptions (depth + 1) optionStart analyze ts
    | .rightParen =>
      if depth = 1 then ((nextToken ts).1, analyze, (nextToken ts).2)
      else scanOptions (depth - 1) optionStart analyze ts
    | kind =>
      if depth = 1 ∧ kind = .comma then scanOptions depth true analyze ts
      else if depth = 1 ∧ optionStart then scanOptions depth false (analyze || t.isAnalyze true) ts
      else scanOptions depth optionStart analyze ts

/-- `pdo_duckdb_sql_scan_explain`. -/
def scanExplain (ts : List Token) : Token × Bool × List Token :=
  let analyze := (nextToken ts).1.isAnalyze false
  let r := if analyze then nextToken (nextToken ts).2 else nextToken ts
  if r.1.kind = .leftParen then scanOptions 1 true analyze r.2 else (r.1, analyze, r.2)

/-- `pdo_duckdb_sql_skip_statement`. -/
def skipStatement : ℕ → List Token → List Token
  | _, [] => []
  | depth, t :: ts =>
    match t.kind with
    | .eof => ts
    | .leftParen => skipStatement (depth + 1) ts
    | .rightParen => skipStatement (if depth > 0 then depth - 1 else depth) ts
    | .semicolon => if depth = 0 then ts else skipStatement depth ts
    | _ => skipStatement depth ts

def initialDepth (t : Token) : ℕ := if t.kind = .leftParen then 1 else 0

/-- `pdo_duckdb_sql_first_transaction_effect`. -/
def firstTransactionEffect (sql : List Byte) : Effect :=
  let r := nextToken ((tokens sql).dropWhile (·.kind == .semicolon))
  if r.1.effect ≠ .none then r.1.effect
  else if r.1.isExplain then
    let wrapped := scanExplain r.2
    if wrapped.2.1 then wrapped.1.effect else .none
  else .none

/-- What one turn of `pdo_duckdb_sql_transaction_flags` makes of the statement
that starts with `first`, and the tokens it leaves. -/
structure Turn where
  effect : Effect
  flags : Flags
  rest : List Token

def statementTurn (first : Token) (ts : List Token) : Turn :=
  if first.effect ≠ .none then
    ⟨first.effect, { direct := true }, skipStatement (initialDepth first) ts⟩
  else if first.isExplain then
    let wrapped := scanExplain ts
    let effect := if wrapped.2.1 then wrapped.1.effect else .none
    ⟨effect, { explainAnalyze := effect ≠ .none },
      skipStatement (initialDepth wrapped.1) wrapped.2.2⟩
  else ⟨.none, {}, skipStatement (initialDepth first) ts⟩

structure Report where
  flags : Flags
  count : ℕ
  effects : List Effect
deriving DecidableEq, Repr

/-- Counts one more statement. The array keeps its length: a statement past the
caller's capacity is not stored. -/
def Report.add (r : Report) (effect : Effect) (flags : Flags) : Report where
  flags := (r.flags.union { multiple := r.count + 1 > 1 }).union flags
  count := r.count + 1
  effects := if r.count + 1 ≤ r.effects.length then r.effects.set r.count effect else r.effects

def flagsLoop : ℕ → List Token → Report → Report
  | 0, _, r => r
  | _ + 1, [], r => r
  | fuel + 1, first :: ts, r =>
    if first.kind = .semicolon then flagsLoop fuel ts r
    else
      let turn := statementTurn first ts
      flagsLoop fuel turn.rest (r.add turn.effect turn.flags)

/-- `pdo_duckdb_sql_transaction_flags`, with the caller's array. -/
def transactionFlags (sql : List Byte) (effects : List Effect) : Report :=
  flagsLoop (tokens sql).length (tokens sql) ⟨{}, 0, effects⟩

/-- The turns of the same loop: at each statement it counts, the tokens from
that statement's first one on. -/
def countedLoop : ℕ → List Token → List (List Token)
  | 0, _ => []
  | _ + 1, [] => []
  | fuel + 1, first :: ts =>
    if first.kind = .semicolon then countedLoop fuel ts
    else (first :: ts) :: countedLoop fuel (statementTurn first ts).rest

def counted (sql : List Byte) : List (List Token) := countedLoop (tokens sql).length (tokens sql)

/-- An option list up to the parenthesis that closes it, and what follows. An
unclosed list, or one with a semicolon in it, is no option list. -/
def optionList : ℕ → List Token → Option (List Token × List Token)
  | _, [] => none
  | depth, t :: ts =>
    match t.mark with
    | .separator => none
    | .right =>
      if depth = 0 then some ([], ts)
      else (optionList (depth - 1) ts).map fun r ↦ (t :: r.1, r.2)
    | _ => (optionList (nest Token.mark depth t) ts).map fun r ↦ (t :: r.1, r.2)

def topLevel : ℕ → List Token → List Token
  | _, [] => []
  | depth, t :: ts =>
    if depth = 0 ∧ t.mark = .plain then t :: topLevel depth ts
    else topLevel (nest Token.mark depth t) ts

def namesAnalyze (options : List Token) : Bool :=
  ((topLevel 0 options).splitOnP (·.kind == .comma)).any fun option ↦
    option.head?.any (·.isAnalyze true)

def explainedBody (analyze : Bool) : List Token → Bool × List Token
  | [] => (analyze, [])
  | t :: ts =>
    if t.mark = .left then
      match optionList 0 ts with
      | some (options, wrapped) => (analyze || namesAnalyze options, wrapped)
      | none => (analyze, [])
    else (analyze, t :: ts)

/-- The statement behind `EXPLAIN [ANALYZE] [(options)]`, and whether it runs. -/
def explained (ts : List Token) : Bool × List Token :=
  let analyze := ts.head?.any (·.isAnalyze false)
  explainedBody analyze (if analyze then ts.tail else ts)

def explainedEffect (ts : List Token) : Effect :=
  let body := explained ts
  if body.1 then (body.2.head?.map Token.effect).getD .none else .none

def classify (statement : List Token) : Effect × Flags :=
  match statement with
  | [] => (.none, {})
  | first :: rest =>
    if first.effect ≠ .none then (first.effect, { direct := true })
    else if first.isExplain then
      (explainedEffect rest, { explainAnalyze := explainedEffect rest ≠ .none })
    else (.none, {})

/-- The statements of a text: its tokens cut at every semicolon outside
parentheses, the empty pieces dropped. -/
def statements (sql : List Byte) : List (List Token) :=
  (split Token.mark 0 (tokens sql)).filter (· ≠ [])

def expectedReport (sql : List Byte) (effects : List Effect) : Report :=
  (statements sql).foldl (fun r s ↦ r.add (classify s).1 (classify s).2) ⟨{}, 0, effects⟩

/-- The report is the one the statements call for, and the loop counts at each
statement once and nowhere else. -/
def Faithful (sql : List Byte) (effects : List Effect) : Prop :=
  transactionFlags sql effects = expectedReport sql effects ∧
    counted sql = starts Token.mark true 0 (tokens sql)

/-- The statement that starts with `u` is an EXPLAIN with no body before its first
semicolon, so that the look-through takes that semicolon, and what is skipped from
there on does not end where the statement does. -/
def Swallows (u : List Token) : Prop :=
  ∃ first between semi rest, u = first :: (between ++ semi :: rest) ∧
    first.effect = .none ∧ first.isExplain ∧ semi.kind = .semicolon ∧
    (∀ t ∈ between, t.kind ≠ .semicolon) ∧ (explained between).2 = [] ∧
    ((depth Token.mark 0 between = 0 ∧ ∃ t ts, rest = t :: ts ∧ t.kind ≠ .semicolon) ∨
      ∃ before semi' after, rest = before ++ semi' :: after ∧ semi'.kind = .semicolon ∧
        depth Token.mark 0 before = 0 ∧
        0 < depth Token.mark (depth Token.mark 0 between) before ∧
        ∃ t ∈ after, t.kind ≠ .semicolon)

end PdoDuckdb.Transaction
