import PdoDuckdb.Bytes
import PdoDuckdb.Library.Exits

namespace PdoDuckdb.Bridge

open Library

/-- `duckdb::ExceptionType`, as far as `is_sql_parse_error` names it. -/
inductive ExceptionType
  | parser | syntaxError | expression | invalidInput | conversion | outOfRange | decimal | invalidType
  | unknownType | notImplemented | binder | invalidConfiguration | catalog | parameterNotAllowed
  | other (id : ℕ)
deriving DecidableEq, Repr

inductive Thrown
  | duckdb (type : ExceptionType)
  | standard
deriving DecidableEq, Repr

/-- `is_sql_parse_error`, for what `catch (const duckdb::Exception &)` takes. -/
def Thrown.isSqlParseError : Thrown → Bool
  | .duckdb (.other _) => false
  | .duckdb _ => true
  | .standard => false

/-- How a batch is left early. `endless` is not in the code: a loop of the model has
had its turns. -/
inductive BatchExit
  | thrown (e : Thrown)
  | endless
deriving DecidableEq, Repr

/-- `require`, and a `std::runtime_error`. -/
def BatchExit.standard : BatchExit := .thrown .standard

/-- `duckdb::SQLStatement`, as far as the bridge looks into it. -/
inductive Parsed
  | select | copy | createTableAs | create
  | insert (returning : Bool) | update (returning : Bool) | delete (returning : Bool) | merge (returning : Bool)
  | transaction (begins : Bool)
  | explain (analyze : Bool) (stmt : Parsed)
  | alter | analyze | variableSet | createFunc | drop | export | vacuum | set | load | attach | detach
  | connect | disconnect | other (id : ℕ)
deriving DecidableEq, Repr

/-- `pdd_bridge_sql_kind`. -/
inductive SqlKind
  | other | select | insert | update | delete | merge | createTableAs | copy
deriving DecidableEq, Repr

/-- `pdd_bridge_sql_info`, but for the number of parameters. -/
structure SqlInfo where
  kind : SqlKind
  hasReturning : Bool
deriving DecidableEq, Repr

/-- `classify_statement`. -/
def classifyStatement : Parsed → SqlInfo
  | .select => ⟨.select, false⟩
  | .createTableAs => ⟨.createTableAs, false⟩
  | .copy => ⟨.copy, false⟩
  | .insert returning => ⟨.insert, returning⟩
  | .update returning => ⟨.update, returning⟩
  | .delete returning => ⟨.delete, returning⟩
  | .merge returning => ⟨.merge, returning⟩
  | _ => ⟨.other, false⟩

/-- `pdd_bridge_transaction_effect`. -/
inductive BatchEffect
  | none | begin | close
deriving DecidableEq, Repr

/-- `transaction_effect`. -/
def transactionEffect : Parsed → BatchEffect
  | .explain analyze stmt => if analyze then transactionEffect stmt else .none
  | .transaction begins => if begins then .begin else .close
  | _ => .none

/-- `control_statement`. -/
def controlStatement (v2 : Bool) : Parsed → Bool
  | .createTableAs | .create | .alter | .transaction _ | .analyze | .variableSet | .createFunc | .drop
  | .export | .vacuum | .set | .load | .attach | .detach => true
  | .connect | .disconnect => v2
  | _ => false

/-- `changes_rows`. -/
def changesRows (info : SqlInfo) : Bool :=
  !info.hasReturning && info.kind ∈ [SqlKind.insert, .update, .delete, .merge, .createTableAs]

inductive ReturnType
  | queryResult | changedRows | nothing
deriving DecidableEq, Repr

/-- A chunk, as far as `read_affected_rows` looks into it. -/
structure CountChunk where
  size : ℕ
  value : Option ℤ
deriving DecidableEq, Repr

inductive Fetched
  | failed | ended | chunk (c : CountChunk)
deriving DecidableEq, Repr

/-- A `duckdb::QueryResult`: each column with its name and whether it is a BIGINT,
and what the first two fetches give. -/
structure QueryResult where
  failed : Bool
  returnType : ReturnType
  columns : List (List Byte × Bool)
  first : Fetched
  second : Fetched
deriving DecidableEq, Repr

/-- The count in the first chunk; `none` for an exception. -/
def QueryResult.firstCount (r : QueryResult) : Option ℕ :=
  match r.first with
  | .failed => none
  | .ended => some 0
  | .chunk c =>
    if c.size = 0 then some 0
    else if c.size ≠ 1 then none
    else
      match c.value with
      | none => none
      | some n => if n < 0 then none else some n.toNat

/-- `read_affected_rows`: whether the rows are counted, and the count; `none` for
an exception. -/
def QueryResult.readAffectedRows (r : QueryResult) (info : SqlInfo) : Option (Bool × ℕ) :=
  let countSchema := decide (r.columns = [(ascii "Count", true)])
  if ¬ r.returnType = .changedRows ∧ ¬ changesRows info ∧ ¬ (info.kind = .copy ∧ countSchema) then some (false, 0)
  else if ¬ countSchema then none
  else
    match r.firstCount with
    | none => none
    | some n =>
      match r.second with
      | .failed => none
      | .ended => some (true, n)
      | .chunk c => if c.size = 0 then some (true, n) else none

inductive TokenType
  | comment | operator | other
deriving DecidableEq, Repr

/-- `duckdb::SimplifiedToken`. -/
structure BatchToken where
  type : TokenType
  start : ℕ
deriving DecidableEq, Repr

structure Statement where
  query : List Byte
  parsed : Parsed
deriving DecidableEq, Repr

/-- What a statement or a text that was handed to the engine came to: an error of
the preparation, a result, or an exception. -/
inductive Answer
  | prepareFailed
  | result (r : QueryResult)
  | thrown
deriving DecidableEq, Repr

/-- The engine, whose state may change in any way with each call. -/
structure BatchEngine (Ω : Type) where
  normalize : List Byte → Except Thrown (List Byte)
  tokenize : List Byte → Except Thrown (List BatchToken)
  openIterator : List Byte → Ω → Except Thrown PUnit × Ω
  peek : Ω → Except Thrown Bool × Ω
  getStatement : Ω → Except Thrown Statement × Ω
  extract : List Byte → Ω → Except Thrown (List Statement) × Ω
  isConnected : Ω → Bool
  hasRemoteCatalogs : Ω → Bool
  prepare : Statement → Ω → Except Thrown Bool × Ω
  executePrepared : Statement → Ω → Except Thrown QueryResult × Ω
  query : Statement → Ω → Except Thrown QueryResult × Ω
  queryText : List Byte → Ω → Except Thrown QueryResult × Ω

/-- `pdd_bridge_exec_info`. -/
structure ExecInfo where
  rowsChanged : ℕ
  completedStatements : ℕ
  lastTransactionEffect : BatchEffect
  parseFailed : Bool
  prepareFailed : Bool
deriving DecidableEq, Repr

structure Located where
  start : ℕ
  statement : Statement
deriving DecidableEq, Repr

/-- A text that was handed to the engine to be executed, what the bridge takes it
for, and what it came to. The offset is that of a statement that was parsed. -/
structure Call where
  place : Option ℕ
  text : List Byte
  classification : SqlInfo
  effect : BatchEffect
  control : Bool
  answer : Answer
deriving DecidableEq, Repr

/-- `BatchParser`. -/
structure BatchParser where
  normalized : List Byte
  tokens : List BatchToken
  tokenCursor : ℕ
  consumed : ℕ
deriving DecidableEq, Repr

namespace BatchParser

def remaining (p : BatchParser) : List Byte := p.normalized.drop p.consumed

def skippable (text : List Byte) (t : BatchToken) : Bool :=
  t.type = .comment || (t.type = .operator && text[t.start]? = some ';'.toUInt8)

/-- Where the first loop of `Next` leaves the cursor. -/
def cursorAfter (p : BatchParser) : ℕ :=
  p.tokenCursor + ((p.tokens.drop p.tokenCursor).takeWhile fun t ↦
    t.start < p.consumed || skippable p.normalized t).length

/-- Where in the source the text of a statement starts, by the token at the cursor
and the tokens of the statement; `none` for a `require` that fails. -/
def locate (p : BatchParser) (t : BatchToken) (query : List Byte) (statementTokens : List BatchToken) :
    Option ℕ :=
  match statementTokens[(statementTokens.takeWhile (skippable query)).length]? with
  | none => none
  | some first =>
    if t.start < first.start then none
    else if query ≠ [] ∧ p.consumed ≤ t.start - first.start ∧ t.start - first.start ≤ p.normalized.length ∧
        (p.normalized.drop (t.start - first.start)).take query.length = query then
      some (t.start - first.start)
    else none

def moveCursor (p : BatchParser) : BatchParser := { p with tokenCursor := p.cursorAfter }

def consume (p : BatchParser) (start : ℕ) (query : List Byte) : BatchParser :=
  { p with consumed := start + query.length }

end BatchParser

/-- The state of `pdd_bridge_exec_batch`. The last two fields are not in the code:
the statements that the parser returned, and what was handed to the engine. -/
structure BatchState (Ω : Type) where
  engine : Ω
  info : ExecInfo
  sawQueryResult : Bool
  parser : BatchParser
  eager : List Located
  returned : List Located
  history : List Call

def BatchState.initial {Ω : Type} (w : Ω) : BatchState Ω :=
  ⟨w, ⟨0, 0, .none, false, false⟩, false, ⟨[], [], 0, 0⟩, [], [], []⟩

abbrev Batch (Ω α : Type) := Exits BatchExit (BatchState Ω) α

section Batch

variable {Ω α : Type}

def engineCall (f : Ω → Except Thrown α × Ω) : Batch Ω α := fun s ↦
  ((f s.engine).1.mapError .thrown, { s with engine := (f s.engine).2 })

def update (f : BatchState Ω → BatchState Ω) : Batch Ω PUnit := Exits.step fun s ↦ (⟨⟩, f s)

def read (f : BatchState Ω → α) : Batch Ω α := Exits.step fun s ↦ (f s, s)

def ofExcept : Except Thrown α → Batch Ω α
  | .ok a => pure a
  | .error e => Exits.exit (.thrown e)

variable (E : BatchEngine Ω)

/-- The constructor of `BatchParser`. -/
def BatchParser.open (query : List Byte) : Batch Ω PUnit := do
  let normalized ← ofExcept (E.normalize query)
  let tokens ← ofExcept (E.tokenize normalized)
  engineCall (E.openIterator normalized)
  update fun s ↦ { s with parser := ⟨normalized, tokens, 0, 0⟩ }

/-- The end of `BatchParser::Next`: the place of a statement, by the token at the cursor. -/
def BatchParser.place (statement : Statement) (t : BatchToken) : Batch Ω (Option Located) := do
  let statementTokens ← ofExcept (E.tokenize statement.query)
  let parser ← read BatchState.parser
  match parser.locate t statement.query statementTokens with
  | none => Exits.exit .standard
  | some start => do
    update fun s ↦ { s with
      parser := s.parser.consume start statement.query
      returned := s.returned ++ [⟨start, statement⟩] }
    pure (some ⟨start, statement⟩)

/-- `BatchParser::Next` once there is a statement. -/
def BatchParser.take (statement : Statement) : Batch Ω (Option Located) := do
  update fun s ↦ { s with parser := s.parser.moveCursor }
  let parser ← read BatchState.parser
  match parser.tokens[parser.tokenCursor]? with
  | none => Exits.exit .standard
  | some t => BatchParser.place E statement t

/-- `BatchParser::Next`. -/
def BatchParser.next : Batch Ω (Option Located) := do
  let more ← engineCall E.peek
  if more then do
    let statement ← engineCall E.getStatement
    BatchParser.take E statement
  else pure none

def Answer.take : Answer → Batch Ω QueryResult
  | .prepareFailed => do
    update fun s ↦ { s with info := { s.info with prepareFailed := true } }
    Exits.exit .standard
  | .thrown => Exits.exit .standard
  | .result r => pure r

def submit (call : Answer → Call) (f : Ω → Except Thrown Answer × Ω) : Batch Ω QueryResult := do
  let answer ← Exits.step fun s ↦
    (match (f s.engine).1 with
      | .ok a => a
      | .error _ => Answer.thrown, { s with engine := (f s.engine).2 })
  update fun s ↦ { s with history := s.history ++ [call answer] }
  answer.take

/-- `finish_batch_result`, once the columns are read. -/
def countResult (output : QueryResult) (classification : SqlInfo) (control force : Bool) : Batch Ω PUnit :=
  match output.readAffectedRows classification with
  | none => Exits.exit .standard
  | some (counted, changed) => update fun s ↦
    let saw := s.sawQueryResult || (!counted && !control && decide (output.returnType = .queryResult))
    { s with
      sawQueryResult := saw
      info := { s.info with rowsChanged := if force ∨ ¬ saw then changed else 0 } }

/-- `finish_batch_result`. -/
def finishBatchResult (output : QueryResult) (classification : SqlInfo) (effect : BatchEffect)
    (control force : Bool) : Batch Ω PUnit :=
  if output.failed then Exits.exit .standard
  else do
    update fun s ↦ { s with info := { s.info with
      completedStatements := s.info.completedStatements + 1
      lastTransactionEffect := if effect = .none then s.info.lastTransactionEffect else effect } }
    countResult output classification control force

/-- `conn.Prepare` and `prepared->Execute`. -/
def BatchEngine.prepareAndExecute (statement : Statement) (w : Ω) : Except Thrown Answer × Ω :=
  match E.prepare statement w with
  | (.error e, w) => (.error e, w)
  | (.ok true, w) => (.ok .prepareFailed, w)
  | (.ok false, w) => ((E.executePrepared statement w).1.map .result, (E.executePrepared statement w).2)

/-- `conn.Query`, of the text where the connection is remote. -/
def BatchEngine.queryStatement (v2 : Bool) (statement : Statement) (w : Ω) : Except Thrown Answer × Ω :=
  if v2 ∧ E.isConnected w then ((E.queryText statement.query w).1.map .result, (E.queryText statement.query w).2)
  else ((E.query statement w).1.map .result, (E.query statement w).2)

/-- `execute_batch_statement`. -/
def executeBatchStatement (v2 force : Bool) (l : Located) : Batch Ω PUnit := do
  let classification := classifyStatement l.statement.parsed
  let effect := transactionEffect l.statement.parsed
  let control := controlStatement v2 l.statement.parsed
  let canPrepare ← read fun s ↦
    force && (!v2 || (!E.isConnected s.engine && !E.hasRemoteCatalogs s.engine))
  let output ← submit (⟨if v2 then some l.start else none, l.statement.query, classification, effect, control, ·⟩)
    (if canPrepare then E.prepareAndExecute l.statement else E.queryStatement v2 l.statement)
  finishBatchResult output classification effect control force

/-- `dispatch_unparsed`. -/
def dispatchUnparsed (force : Bool) (remaining : List Byte) : Batch Ω PUnit := do
  let output ← submit (⟨none, remaining, ⟨.other, false⟩, .none, false, ·⟩)
    fun w ↦ ((E.queryText remaining w).1.map .result, (E.queryText remaining w).2)
  update fun s ↦ { s with info := { s.info with parseFailed := s.info.parseFailed && output.failed } }
  finishBatchResult output ⟨.other, false⟩ .none false force

/-- What `catch` does about an exception of the parser; `forward` says what is left
of the batch. -/
def afterParseError (force : Bool) (forward : BatchState Ω → List Byte) : BatchExit → Batch Ω PUnit
  | .endless => Exits.exit .endless
  | .thrown e =>
    if e.isSqlParseError then do
      update fun s ↦ { s with info := { s.info with parseFailed := true } }
      if force then Exits.exit .standard
      else do
        let remaining ← read forward
        dispatchUnparsed E force remaining
    else Exits.exit (.thrown e)

/-- The function `next` of the batch. -/
def nextStatement (force : Bool) : Batch Ω (Option Located) :=
  Exits.caught (BatchParser.next E) fun e ↦ do
    afterParseError E force (fun s ↦ s.parser.remaining) e
    pure none

/-- A turn of the loop that executes each statement as it is parsed. -/
def lazyTurn : Batch Ω (Option PUnit) := do
  match ← nextStatement E false with
  | none => pure (some ⟨⟩)
  | some l => do
    executeBatchStatement E true false l
    pure none

/-- A turn of the loop that parses the whole batch first. -/
def eagerTurn : Batch Ω (Option PUnit) := do
  match ← nextStatement E true with
  | none => pure (some ⟨⟩)
  | some l => do
    update fun s ↦ { s with eager := s.eager ++ [l] }
    pure none

/-- A loop that ends, as `loop_ends` has it, before its turns are over. -/
def batchLoop (turn : Batch Ω (Option PUnit)) : Batch Ω PUnit := do
  let n ← read fun s ↦ s.parser.normalized.length + 1
  match ← Exits.turns turn n with
  | some _ => pure ⟨⟩
  | none => Exits.exit .endless

def batchLoops (force : Bool) : Batch Ω PUnit :=
  if force then do
    batchLoop (eagerTurn E)
    let eager ← read BatchState.eager
    Exits.each (executeBatchStatement E true true) eager
  else batchLoop (lazyTurn E)

def openBatch (query : List Byte) (force : Bool) : Batch Ω Bool :=
  Exits.caught (do
    BatchParser.open E query
    pure true) fun e ↦ do
    afterParseError E force (fun _ ↦ query) e
    pure false

/-- The body of `pdd_bridge_exec_batch`, for DuckDB 2.0. -/
def execBatchLazily (query : List Byte) (force : Bool) : Batch Ω PUnit := do
  let opened ← openBatch E query force
  if opened then batchLoops E force else pure ⟨⟩

/-- `parser.ExtractStatements`, before DuckDB 2.0. -/
def extractBatch (query : List Byte) : Batch Ω (List Statement) :=
  Exits.caught (engineCall (E.extract query)) fun e ↦ do
    update fun s ↦ match e with
      | .thrown (.duckdb type) => { s with info := { s.info with parseFailed := (Thrown.duckdb type).isSqlParseError } }
      | _ => s
    Exits.exit e

/-- The body of `pdd_bridge_exec_batch`, before DuckDB 2.0. -/
def execBatchEagerly (query : List Byte) (force : Bool) : Batch Ω PUnit := do
  let statements ← extractBatch E query
  Exits.each (fun statement ↦ executeBatchStatement E false force ⟨0, statement⟩) statements

/-- `pdd_bridge_exec_batch`. -/
def execBatch (v2 : Bool) (query : List Byte) (force : Bool) : Batch Ω PUnit :=
  if 0 ∈ query then Exits.exit .standard
  else if v2 then execBatchLazily E query force
  else execBatchEagerly E query force

/-- A call of `pdd_bridge_exec_batch`. -/
def runBatch (v2 : Bool) (query : List Byte) (force : Bool) (w : Ω) : Except BatchExit PUnit × BatchState Ω :=
  execBatch E v2 query force (.initial w)

end Batch

/-- `pdo_duckdb_exec_bridge_locked`, as far as `in_txn` goes. -/
def BatchEffect.apply (inTxn : Bool) : BatchEffect → Bool
  | .none => inTxn
  | .begin => true
  | .close => false

end PdoDuckdb.Bridge
