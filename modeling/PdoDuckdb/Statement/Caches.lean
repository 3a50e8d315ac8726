import PdoDuckdb.Bytes
import Mathlib.Data.List.Basic
import Mathlib.Logic.Function.Basic

namespace PdoDuckdb.Statement

/-- Address of a `pdo_duckdb_stmt`. -/
abbrev StmtAddress := ℕ

/-- Address of a `duckdb_data_chunk`. -/
abbrev ChunkAddress := ℕ

inductive DuckdbType
  | boolean | tinyint | smallint | integer | bigint
  | utinyint | usmallint | uinteger | hugeint
  | float | double | varchar | blob | variant | decimal | enum
  | list | array | struct | map | union
  | other (id : ℕ)
deriving DecidableEq, Repr

structure Column where
  type : DuckdbType
  decimalWidth : ℕ
  decimalScale : ℕ
  decimalInternal : DuckdbType
  enumInternal : DuckdbType
  enumDictionary : List (List Byte)
deriving DecidableEq, Repr

/-- A vector of a chunk, with the pointers that reading it goes through. The
chunk is named by its serial number, since addresses come back. -/
structure Vector where
  chunk : ℕ
  index : ℕ
  data : ℕ
  validity : Option ℕ
deriving DecidableEq, Repr

/-- A chunk in the engine's memory: its serial number, the statement and the
result it was fetched for, if any, and the data and validity of its columns. -/
structure Chunk where
  serial : ℕ
  fetchedFor : Option (StmtAddress × ℕ)
  columns : List (ℕ × Option ℕ)
deriving DecidableEq, Repr

/-- `duckdb_data_chunk_get_vector`, `none` outside the columns. -/
def Chunk.getVector (c : Chunk) (i : ℕ) : Option Vector :=
  c.columns[i]?.map fun (data, validity) ↦ ⟨c.serial, i, data, validity⟩

def Chunk.vectors (c : Chunk) : List Vector :=
  c.columns.mapIdx fun i (data, validity) ↦ ⟨c.serial, i, data, validity⟩

abbrev Memory := ChunkAddress → Option Chunk

structure ChunkCache where
  chunk : Option ChunkAddress
  ncols : ℕ
  cap : ℕ
  vecs : List Vector
  datas : List ℕ
  validities : List (Option ℕ)
deriving DecidableEq, Repr

namespace ChunkCache

def empty : ChunkCache := ⟨none, 0, 0, [], [], []⟩

def invalidate (c : ChunkCache) (chunk : Option ChunkAddress) : ChunkCache :=
  if chunk.isSome ∧ c.chunk = chunk then { c with chunk := none } else c

/-- `realloc` of the buffer of the three arrays. -/
def grow (c : ChunkCache) (n : ℕ) : ChunkCache :=
  if c.cap < n then { c with cap := n, vecs := [], datas := [], validities := [] } else c

def fill (c : ChunkCache) (a : ChunkAddress) (vectors : List Vector) : ChunkCache :=
  { c with
    chunk := some a
    ncols := vectors.length
    vecs := vectors ++ c.vecs.drop vectors.length
    datas := vectors.map Vector.data ++ c.datas.drop vectors.length
    validities := vectors.map Vector.validity ++ c.validities.drop vectors.length }

/-- `pdo_duckdb_chunk_cache_load`; `grows` is what `realloc` answers. -/
def load (c : ChunkCache) (memory : Memory) (chunk : Option ChunkAddress) (grows : Bool) :
    ChunkCache :=
  let c := { c with chunk := none, ncols := 0 }
  match chunk with
  | none => c
  | some a =>
    match memory a with
    | none => c
    | some object =>
      if c.cap < object.vectors.length ∧ ¬ grows then c
      else (c.grow object.vectors.length).fill a object.vectors

end ChunkCache

structure ColAux where
  isDecimal : Bool
  decWidth : ℕ
  decScale : ℕ
  decInternal : DuckdbType
  isEnum : Bool
  enumInternal : DuckdbType
  enumVals : List (List Byte)
deriving DecidableEq, Repr

namespace ColAux

/-- The slot after `memset`. -/
def zero : ColAux := ⟨false, 0, 0, .other 0, false, .other 0, []⟩

/-- What `pdo_duckdb_col_aux_free_content` does to one slot. -/
def free (a : ColAux) : ColAux := { a with isDecimal := false, isEnum := false, enumVals := [] }

def flagged (a : ColAux) : Bool := a.isDecimal || a.isEnum

end ColAux

/-- `pdo_duckdb_decimal_meta_ok`. -/
def decimalMetaOk (width scale : ℕ) : Bool := 1 ≤ width && width ≤ 38 && scale ≤ width

/-- The slot that `pdo_duckdb_stmt_cache_col_aux` builds for a column; `copied`
tells whether every ENUM label was read and copied. -/
def Column.aux (t : Column) (copied : Bool) : ColAux :=
  if t.type = .decimal then
    if decimalMetaOk t.decimalWidth t.decimalScale
        ∧ t.decimalInternal ∈ [DuckdbType.smallint, .integer, .bigint, .hugeint] then
      { ColAux.zero with
        isDecimal := true
        decWidth := t.decimalWidth
        decScale := t.decimalScale
        decInternal := t.decimalInternal }
    else .zero
  else if t.type = .enum then
    if t.enumInternal ∈ [DuckdbType.utinyint, .usmallint, .uinteger] ∧ copied then
      { ColAux.zero with
        isEnum := true
        enumInternal := t.enumInternal
        enumVals := t.enumDictionary }
    else .zero
  else .zero

/-- The column auxiliary cache. `result` is not in the code: it is the serial
number of the result whose columns the content was built from. -/
structure ColAuxCache where
  owner : Option StmtAddress
  ncols : ℕ
  cap : ℕ
  cols : List ColAux
  result : ℕ
deriving DecidableEq, Repr

namespace ColAuxCache

def empty : ColAuxCache := ⟨none, 0, 0, [], 0⟩

def freeContent (a : ColAuxCache) : ColAuxCache :=
  { a with cols := a.cols.mapIdx fun i aux ↦ if i < a.ncols then aux.free else aux }

def release (a : ColAuxCache) (S : StmtAddress) : ColAuxCache :=
  if a.owner = some S then { a.freeContent with owner := none, ncols := 0 } else a

/-- `pdo_duckdb_stmt_cache_col_aux`; `grows` is what `realloc` answers. -/
def cache (a : ColAuxCache) (S : StmtAddress) (result : ℕ) (columns : List Column)
    (grows : Bool) (copied : ℕ → Bool) : ColAuxCache :=
  let a := { a.freeContent with owner := none, ncols := 0 }
  if columns.length = 0 ∨ a.cap < columns.length ∧ ¬ grows then a
  else
    { owner := some S
      ncols := columns.length
      cap := max a.cap columns.length
      cols := (columns.mapIdx fun i t ↦ t.aux (copied i)) ++ a.cols.drop columns.length
      result := result }

/-- `pdo_duckdb_col_aux_for`, with the serial number of the result. -/
def find (a : ColAuxCache) (S : StmtAddress) (colno : ℕ) : Option (ℕ × ColAux) :=
  if a.owner ≠ some S ∨ a.ncols ≤ colno then none
  else
    match a.cols[colno]? with
    | none => none
    | some aux => if aux.flagged then some (a.result, aux) else none

end ColAuxCache

/-- One column read: the row, the vector, data and validity it goes through, and
the auxiliary data that it consults. -/
structure ColumnRead where
  stmt : StmtAddress
  column : ℕ
  row : ℕ
  vec : Option Vector
  data : Option ℕ
  validity : Option ℕ
  aux : Option (ℕ × ColAux)
deriving DecidableEq, Repr

/-- The fields of a statement that fetching and reading touch. `result` is the
serial number of its last result. A converted cell is kept as the read that it
came from, and `[]` stands for a converted row that is not allocated. -/
structure Stmt where
  nativeStructures : Bool
  hasResult : Bool
  result : ℕ
  chunk : Option ChunkAddress
  chunkSize : ℕ
  cur : ℕ
  columns : List Column
  variantCols : List ℕ
  started : Bool
  done : Bool
  rowNative : Bool
  rowValues : List (Option ColumnRead)
  rowCanonical : List (Option ColumnRead)
deriving DecidableEq, Repr

def Stmt.fresh : Stmt := ⟨false, false, 0, none, 0, 0, [], [], false, false, false, [], []⟩

/-- `pdo_duckdb_stmt_clear_converted_row`. -/
def Stmt.clearConvertedRow (t : Stmt) (release : Bool) : Stmt :=
  { t with
    rowNative := false
    rowValues := if release then [] else t.rowValues.map fun _ ↦ none
    rowCanonical := if release then [] else t.rowCanonical.map fun _ ↦ none }

structure State where
  stmts : StmtAddress → Option Stmt
  memory : Memory
  cache : ChunkCache
  colAux : ColAuxCache
  nextChunk : ℕ
  nextResult : ℕ

namespace State

def initial : State := ⟨fun _ ↦ none, fun _ ↦ none, .empty, .empty, 0, 0⟩

def put (s : State) (S : StmtAddress) (t : Stmt) : State :=
  { s with stmts := Function.update s.stmts S (some t) }

def destroyChunk (s : State) (S : StmtAddress) (t : Stmt) : State :=
  match t.chunk with
  | none => s.put S t
  | some a =>
    { s.put S { t with chunk := none } with
      cache := s.cache.invalidate (some a)
      memory := Function.update s.memory a none }

/-- `pdo_duckdb_stmt_reset_result`. -/
def resetResult (s : State) (S : StmtAddress) (t : Stmt) : State :=
  let t := { t.clearConvertedRow true with variantCols := [], columns := [] }
  { s with colAux := s.colAux.release S }.destroyChunk S
    { t with hasResult := false, chunkSize := 0, cur := 0, started := false, done := false }

def stopResult (s : State) (S : StmtAddress) (t : Stmt) : State :=
  let s := s.resetResult S t
  match s.stmts S with
  | none => s
  | some t => s.put S { t with done := true }

end State

/-- How an execute ends: without a result; with one whose columns cannot be read
(here the ones read so far), by an error or out of memory; or with its columns,
the ones that have a probe, and what the auxiliary cache needs. -/
inductive Execution
  | failed
  | discarded (columns : List Column)
  | bailout (columns : List Column)
  | executed (columns : List Column) (probed : List ℕ) (grows : Bool) (copied : ℕ → Bool)

namespace State

/-- The native execution and `pdo_duckdb_stmt_cache_columns`, on a reset statement. -/
def takeResult (s : State) (S : StmtAddress) (t : Stmt) (o : Execution) : State :=
  let t := { t with hasResult := true, result := s.nextResult }
  let next := { s with nextResult := s.nextResult + 1 }
  match o with
  | .failed => s
  | .discarded columns => next.resetResult S { t with columns := columns }
  | .bailout columns => next.put S { t with columns := columns }
  | .executed columns probed grows copied =>
    let next := next.put S { t with columns := columns, variantCols := probed }
    if columns = [] then next
    else { next with colAux := next.colAux.cache S t.result columns grows copied }

/-- `pdo_duckdb_stmt_execute`, as far as the cursor goes. -/
def execute (s : State) (S : StmtAddress) (t : Stmt) (o : Execution) : State :=
  let s := s.resetResult S t
  match s.stmts S with
  | none => s
  | some t => s.takeResult S t o

end State

/-- What the outside answers while a column of a fetched row is converted. -/
structure Conversion where
  oom : Bool
  scalarBinding : Bool
  structured : Option Bool
  isNull : Bool
  cachedEnum : Bool
  bailout : Bool
  fastNested : Bool
  rendered : Bool
  converted : Bool

inductive Outcome
  | next
  | failed
  | bailout
deriving DecidableEq, Repr

/-- What the outside answers while a fetched row is converted: the attribute,
the probes, each column, and the memory at the end. -/
structure RowAnswers where
  stringify : Bool
  hit : ℕ → Bool
  column : ℕ → Conversion
  oom : Bool

def canonicalTypes : List DuckdbType := [.list, .array, .struct, .map, .union, .variant, .enum]

def Stmt.allocateRow (t : Stmt) : Stmt :=
  if t.rowCanonical = [] then
    { t with
      rowCanonical := List.replicate t.columns.length none
      rowValues := List.replicate t.columns.length none }
  else t

def Stmt.setCanonical (t : Stmt) (c : ℕ) (r : ColumnRead) : Stmt :=
  { t with rowCanonical := t.rowCanonical.set c (some r) }

def Stmt.setValue (t : Stmt) (c : ℕ) (r : ColumnRead) : Stmt :=
  { t with rowValues := t.rowValues.set c (some r) }

def Stmt.nullCell (t : Stmt) (c : ℕ) (native : Bool) (r : ColumnRead) :
    Stmt × List ColumnRead × Outcome :=
  let t := t.setCanonical c r
  (if native then t.setValue c r else t, [r], .next)

def Stmt.convertCell (t : Stmt) (c : ℕ) (type : Column) (native : Bool) (o : Conversion)
    (r : ColumnRead) : Stmt × List ColumnRead × Outcome :=
  if (r.aux.any fun (_, aux) ↦ aux.isEnum) ∧ o.cachedEnum then (t.setCanonical c r, [r], .next)
  else if o.bailout then (t, [r], .bailout)
  else if type.type ∈ canonicalTypes ∧ ¬ o.fastNested ∧ ¬ o.rendered then (t, [r], .failed)
  else
    let t := if type.type ∈ canonicalTypes then t.setCanonical c r else t
    if native then
      if o.converted then (t.setValue c r, [r], .next) else (t, [r], .failed)
    else (t, [r], .next)

namespace State

/-- `duckdb_data_chunk_get_vector` of the current chunk. -/
def getVector (s : State) (t : Stmt) (c : ℕ) : Option Vector :=
  (t.chunk.bind s.memory).bind fun object ↦ object.getVector c

def directRead (s : State) (S : StmtAddress) (t : Stmt) (c : ℕ) (aux : Option (ℕ × ColAux)) :
    ColumnRead :=
  let vec := s.getVector t c
  ⟨S, c, t.cur, vec, vec.map Vector.data, vec.bind Vector.validity, aux⟩

/-- `pdo_duckdb_stmt_row_has_variant`, over the columns that have a probe. -/
def rowHasVariant (s : State) (S : StmtAddress) (t : Stmt) (hit : ℕ → Bool) :
    List ℕ → List ColumnRead × Bool
  | [] => ([], false)
  | c :: rest =>
    let vec := if s.cache.chunk = t.chunk ∧ c < s.cache.ncols then s.cache.vecs[c]?
      else s.getVector t c
    let r : ColumnRead := ⟨S, c, t.cur, vec, vec.map Vector.data, vec.bind Vector.validity, none⟩
    if vec.isSome ∧ hit c then ([r], true)
    else (r :: (s.rowHasVariant S t hit rest).1, (s.rowHasVariant S t hit rest).2)

/-- The body of the loop of `pdo_duckdb_stmt_fetched_row`. -/
def convertColumn (s : State) (S : StmtAddress) (t : Stmt) (c : ℕ) (type : Column)
    (o : Conversion) : Stmt × List ColumnRead × Outcome :=
  if o.oom then (t, [], .failed)
  else
    match if t.rowNative ∧ ¬ o.scalarBinding then o.structured else some false with
    | none => (t, [], .failed)
    | some native =>
      if type.type ∉ canonicalTypes ∧ ¬ native then (t, [], .next)
      else if (s.directRead S t c none).validity.isSome ∧ o.isNull then
        t.allocateRow.nullCell c native (s.directRead S t c none)
      else
        t.allocateRow.convertCell c type native o
          (s.directRead S t c (if type.type = .enum then s.colAux.find S c else none))

/-- The loop of `pdo_duckdb_stmt_fetched_row` from column `c` on. -/
def convertColumns (s : State) (S : StmtAddress) (o : ℕ → Conversion) :
    ℕ → List Column → Stmt → Stmt × List ColumnRead × Outcome
  | _, [], t => (t, [], .next)
  | c, type :: rest, t =>
    match s.convertColumn S t c type (o c) with
    | (t, reads, .next) =>
      let (t, reads', out) := s.convertColumns S o (c + 1) rest t
      (t, reads ++ reads', out)
    | (t, reads, out) => (t, reads, out)

/-- `pdo_duckdb_stmt_fetched_row` after its first two lines. Only a DuckDB 2.0
build has probes that reject a row. -/
def convertRow (v2 : Bool) (s : State) (S : StmtAddress) (t : Stmt) (o : RowAnswers) :
    State × List ColumnRead :=
  let (probed, hit) := s.rowHasVariant S t o.hit t.variantCols
  if hit ∧ v2 then (s.put S (t.clearConvertedRow false), probed)
  else
    let (t, reads, out) := s.convertColumns S o.column 0 t.columns t
    if out = .failed ∨ out = .next ∧ o.oom then
      (s.put S (t.clearConvertedRow false), probed ++ reads)
    else (s.put S t, probed ++ reads)

def fetchedRow (v2 : Bool) (s : State) (S : StmtAddress) (t : Stmt) (o : RowAnswers) :
    State × List ColumnRead :=
  s.convertRow v2 S
    { t.clearConvertedRow false with rowNative := t.nativeStructures && !o.stringify } o

end State

/-- What a turn of the loop of `pdo_duckdb_stmt_fetch` gets: a refusal of the
sandbox, a chunk at an address that is free, the end, an error, or an error whose
text finds no memory. -/
inductive Pull
  | refused
  | chunk (a : ChunkAddress) (columns : List (ℕ × Option ℕ)) (size : ℕ) (grows : Bool)
  | ended
  | failed
  | bailout

namespace State

def takeChunk (s : State) (S : StmtAddress) (t : Stmt) (a : ChunkAddress)
    (columns : List (ℕ × Option ℕ)) (grows : Bool) : State :=
  let memory := Function.update s.memory a (some ⟨s.nextChunk, some (S, t.result), columns⟩)
  { s.put S t with
    memory := memory
    cache := s.cache.load memory (some a) grows
    nextChunk := s.nextChunk + 1 }

/-- The loop of `pdo_duckdb_stmt_fetch`. -/
def fetchLoop (v2 : Bool) (S : StmtAddress) (o : RowAnswers) :
    List Pull → State → Stmt → State × List ColumnRead
  | [], s, t => ((s.destroyChunk S t).put S { t with chunk := none, done := true }, [])
  | .refused :: _, s, t => (s.stopResult S t, [])
  | .ended :: _, s, t => ((s.destroyChunk S t).put S { t with chunk := none, done := true }, [])
  | .failed :: _, s, t => ((s.destroyChunk S t).stopResult S { t with chunk := none }, [])
  | .bailout :: _, s, t =>
    ((s.destroyChunk S t).put S { t with chunk := none, hasResult := false }, [])
  | .chunk a columns size grows :: rest, s, t =>
    let s := s.destroyChunk S t
    let t := { t with chunk := none }
    match s.memory a with
    | some _ => fetchLoop v2 S o rest s t
    | none =>
      let t := { t with chunk := some a, chunkSize := size, cur := 0 }
      let s := s.takeChunk S t a columns grows
      if 0 < size then s.fetchedRow v2 S t o else fetchLoop v2 S o rest s t

/-- `pdo_duckdb_stmt_fetch`. -/
def fetch (v2 : Bool) (s : State) (S : StmtAddress) (t : Stmt) (forward : Bool)
    (pulls : List Pull) (o : RowAnswers) : State × List ColumnRead :=
  if ¬ t.hasResult ∨ t.done ∨ ¬ forward then (s, [])
  else if ¬ t.started then fetchLoop v2 S o pulls s { t with started := true }
  else if t.cur + 1 < t.chunkSize then s.fetchedRow v2 S { t with cur := t.cur + 1 } o
  else fetchLoop v2 S o pulls s { t with cur := t.cur + 1 }

end State

/-- The types that `pdo_duckdb_stmt_get_col` reads without auxiliary data. -/
def directTypes : List DuckdbType :=
  [.boolean, .tinyint, .smallint, .integer, .utinyint, .usmallint, .float, .double, .bigint,
    .uinteger, .varchar, .blob, .variant]

/-- What a call of `pdo_duckdb_stmt_get_col` is given, and what `realloc` and the
validity of the row answer. -/
structure Reading where
  stringify : Bool
  typed : Bool
  grows : Bool
  isNull : Bool

def Stmt.convertedCell (t : Stmt) (colno : ℕ) (o : Reading) : Option ColumnRead :=
  if t.rowNative ∧ ¬ o.stringify ∧ ¬ o.typed ∧ (t.rowValues[colno]?).join.isSome then
    (t.rowValues[colno]?).join
  else (t.rowCanonical[colno]?).join

namespace State

/-- The end of `pdo_duckdb_stmt_get_col`: the auxiliary data that the column is
decoded with. -/
def decode (s : State) (S : StmtAddress) (t : Stmt) (colno : ℕ) (o : Reading) (vec : Option Vector)
    (data validity : Option ℕ) : ColumnRead :=
  ⟨S, colno, t.cur, vec, data, validity,
    if validity.isSome ∧ o.isNull ∨ ∃ type ∈ t.columns[colno]?, type.type ∈ directTypes then none
    else s.colAux.find S colno⟩

/-- `pdo_duckdb_stmt_get_col` once the cache is loaded, or cannot be: the column
through the cache, or through the chunk itself. -/
def readColumn (s : State) (S : StmtAddress) (t : Stmt) (colno : ℕ) (o : Reading) :
    List ColumnRead :=
  if s.cache.chunk = t.chunk then
    if s.cache.ncols ≤ colno then []
    else [s.decode S t colno o s.cache.vecs[colno]? s.cache.datas[colno]?
      (s.cache.validities[colno]?).join]
  else
    match s.getVector t colno with
    | none => []
    | some v => [s.decode S t colno o (some v) (some v.data) v.validity]

/-- `pdo_duckdb_stmt_get_col`. -/
def getCol (s : State) (S : StmtAddress) (t : Stmt) (colno : ℕ) (o : Reading) :
    State × List ColumnRead :=
  if t.chunk = none ∨ t.chunkSize ≤ t.cur ∨ t.columns.length ≤ colno then (s, [])
  else
    match t.convertedCell colno o with
    | some r => (s, [r])
    | none =>
      let s := if s.cache.chunk ≠ t.chunk then
        { s with cache := s.cache.load s.memory t.chunk o.grows } else s
      (s, s.readColumn S t colno o)

end State

inductive Event
  | prepare (S : StmtAddress)
  | setNativeStructures (S : StmtAddress) (enabled : Bool)
  | execute (S : StmtAddress) (o : Execution)
  | fetch (S : StmtAddress) (forward : Bool) (pulls : List Pull) (o : RowAnswers)
  | getCol (S : StmtAddress) (colno : ℕ) (o : Reading)
  | bindFailure (S : StmtAddress)
  | closeCursor (S : StmtAddress)
  | destroy (S : StmtAddress)
  | shutdown
  | allocate (a : ChunkAddress) (columns : List (ℕ × Option ℕ))
  | deallocate (a : ChunkAddress)

namespace State

def on (s : State) (S : StmtAddress) (f : Stmt → State × List ColumnRead) :
    State × List ColumnRead :=
  match s.stmts S with
  | none => (s, [])
  | some t => f t

/-- One call into the driver, or of the engine for a chunk that no statement
has; memory is given out where nothing lives. -/
def step (v2 : Bool) (s : State) : Event → State × List ColumnRead
  | .prepare S =>
    match s.stmts S with
    | none => (s.put S .fresh, [])
    | some _ => (s, [])
  | .setNativeStructures S enabled =>
    s.on S fun t ↦ (s.put S { t with nativeStructures := enabled }, [])
  | .execute S o => s.on S fun t ↦ (s.execute S t o, [])
  | .fetch S forward pulls o => s.on S fun t ↦ s.fetch v2 S t forward pulls o
  | .getCol S colno o => s.on S fun t ↦ s.getCol S t colno o
  | .bindFailure S | .closeCursor S => s.on S fun t ↦ (s.resetResult S t, [])
  | .destroy S =>
    s.on S fun t ↦
      let s := s.resetResult S t
      ({ s with stmts := Function.update s.stmts S none }, [])
  | .shutdown => ({ s with cache := .empty, colAux := .empty }, [])
  | .allocate a columns =>
    match s.memory a with
    | none =>
      ({ s with
        memory := Function.update s.memory a (some ⟨s.nextChunk, none, columns⟩)
        nextChunk := s.nextChunk + 1 }, [])
    | some _ => (s, [])
  | .deallocate a =>
    match s.memory a with
    | some ⟨_, none, _⟩ => ({ s with memory := Function.update s.memory a none }, [])
    | _ => (s, [])

end State

end PdoDuckdb.Statement
