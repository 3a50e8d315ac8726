import Mathlib.Data.List.Basic
import Mathlib.Logic.Function.Basic

namespace PdoDuckdb.Appenders

abbrev AppenderId := ℕ

/-- The serial number of a row given to `duckdb_appender_end_row`. -/
abbrev Row := ℕ

inductive NativeCall
  | append
  | endRow
  | flush
  | close
  | errorData
  | clear
  | destroy
deriving DecidableEq, Repr

/-- A native call on an appender, and the rows that DuckDB wrote in it. -/
structure Called where
  appender : AppenderId
  call : NativeCall
  wrote : List Row
deriving DecidableEq, Repr

/-- A `pdo_duckdb_appender`: its native appender, here by the rows buffered in
it, and its `closed` flag. -/
structure Appender where
  native : Option (List Row)
  closed : Bool
deriving DecidableEq, Repr

structure State where
  appenders : AppenderId → Option Appender
  /-- The linked appenders of the connection, `H->appenders`. -/
  live : List AppenderId
  trace : List Called
  next : Row

namespace State

def initial : State := ⟨fun _ ↦ none, [], [], 0⟩

def put (s : State) (id : AppenderId) (a : Appender) : State :=
  { s with appenders := Function.update s.appenders id (some a) }

def called (s : State) (id : AppenderId) (call : NativeCall) (wrote : List Row) : State :=
  { s with trace := s.trace ++ [⟨id, call, wrote⟩] }

/-- `pdo_duckdb_appender_live`: the buffered rows of an appender in use. -/
def liveBuffer (s : State) (id : AppenderId) : Option (List Row) :=
  match s.appenders id with
  | some ⟨some buffer, false⟩ => some buffer
  | _ => none

end State

/-- `duckdb_appender_flush`, `close` and `destroy` on the buffered rows: the rows
left and the rows written. -/
def writeBuffer (ok : Bool) (buffer : List Row) : List Row × List Row :=
  if ok then ([], buffer) else (buffer, [])

/-- `duckdb_appender_clear`. -/
def clearBuffer (_ : List Row) : List Row := []

/-- What `duckdb_appender_end_row` does: it buffers the row, and may write the
whole buffer when that is full; or it fails, with or without the row. -/
inductive EndRow
  | done (flushes : Bool)
  | failed (kept : Bool)
deriving DecidableEq, Repr

/-- What the outside answers during one `appendRow`: the sandbox twice, the
validation of the row, and DuckDB for each cell and for the row. -/
structure Appending where
  enforced : Except String Unit
  valid : Except String Unit
  entered : Except String Unit
  cells : List Bool
  endRow : EndRow
  detail : String

structure Flushing where
  enforced : Except String Unit
  entered : Except String Unit
  ok : Bool
  detail : String

structure Releasing where
  allowed : Bool
  closeOk : Bool
  destroyOk : Bool
  detail : String

def closedMessage : String := "Pdo\\Duckdb\\Appender is closed"

namespace State

def appendCells (s : State) (id : AppenderId) : List Bool → State × Bool
  | [] => (s, true)
  | ok :: cells =>
    if ok then (s.called id .append []).appendCells id cells else (s.called id .append [], false)

def poison (s : State) (id : AppenderId) (buffer : List Row) : State :=
  (s.put id ⟨some buffer, true⟩).called id .errorData []

def endRow (s : State) (id : AppenderId) (buffer : List Row) (o : Appending) :
    State × Except String Unit :=
  let rows := buffer ++ [s.next]
  let counted := { s with next := s.next + 1 }
  match o.endRow with
  | .done flushes =>
    let (left, wrote) := writeBuffer flushes rows
    ((counted.called id .endRow wrote).put id ⟨some left, false⟩, .ok ())
  | .failed kept =>
    ((counted.called id .endRow []).poison id (if kept then rows else buffer),
      .error ("Failed to end appender row: " ++ o.detail))

def appendRow (s : State) (id : AppenderId) (o : Appending) : State × Except String Unit :=
  match s.liveBuffer id with
  | none => (s, .error closedMessage)
  | some buffer =>
    match o.enforced, o.valid, o.entered with
    | .ok (), .ok (), .ok () =>
      match s.appendCells id o.cells with
      | (s, false) => (s.poison id buffer, .error ("Failed to append value: " ++ o.detail))
      | (s, true) => s.endRow id buffer o
    | .error message, _, _ => (s, .error message)
    | _, .error message, _ => (s, .error message)
    | _, _, .error message => (s, .error message)

/-- `flush` and `close`, which differ in the native call, in the message and in
whether the appender stays in use. -/
def writeOut (call : NativeCall) (keeps : Bool) (failure : String) (s : State) (id : AppenderId)
    (o : Flushing) : State × Except String Unit :=
  match s.liveBuffer id with
  | none => (s, .error closedMessage)
  | some buffer =>
    match o.enforced, o.entered with
    | .ok (), .ok () =>
      let (left, wrote) := writeBuffer o.ok buffer
      let written := s.called id call wrote
      if o.ok then (written.put id ⟨some left, !keeps⟩, .ok ())
      else (written.poison id left, .error (failure ++ o.detail))
    | .error message, _ => (s, .error message)
    | _, .error message => (s, .error message)

def flush : State → AppenderId → Flushing → State × Except String Unit :=
  writeOut .flush true "Failed to flush appender: "

def close : State → AppenderId → Flushing → State × Except String Unit :=
  writeOut .close false "Failed to close appender: "

/-- `pdo_duckdb_appender_release_native`, with the warnings it raises. -/
def releaseNative (s : State) (id : AppenderId) (o : Releasing) : State × List String :=
  if id ∉ s.live then (s, [])
  else
    let unlinked := { s with live := s.live.erase id }
    match s.appenders id with
    | some ⟨some buffer, wasClosed⟩ =>
      let closes := !wasClosed && o.allowed
      let (left, wrote) := writeBuffer (closes && o.closeOk) buffer
      let closed := if closes then unlinked.called id .close wrote else unlinked
      let failed := closes && !o.closeOk
      let read := if failed then closed.called id .errorData [] else closed
      let (_, rewrote) := writeBuffer o.destroyOk (clearBuffer left)
      let destroyed := (read.called id .clear []).called id .destroy rewrote
      (destroyed.put id ⟨none, true⟩,
        (if failed then ["Pdo\\Duckdb\\Appender close during destruction failed: " ++ o.detail]
          else []) ++
        (if !o.destroyOk && !wasClosed && !failed then
          ["Pdo\\Duckdb\\Appender destroy during destruction failed"] else []))
    | _ => (unlinked, [])

/-- `pdo_duckdb_appenders_release`, run by the connection's closer. -/
def releaseAll (s : State) (o : AppenderId → Releasing) : State :=
  s.live.foldl (fun s id ↦ (s.releaseNative id (o id)).1) s

/-- `pdo_duckdb_appenders_discard_for_rollback` at one appender; `freed` tells
whether its PDO object has been freed. -/
def discard (s : State) (id : AppenderId) (freed : Bool) : State :=
  match s.liveBuffer id with
  | some buffer =>
    if freed then (s.called id .clear []).put id ⟨some (clearBuffer buffer), false⟩ else s
  | none => s

def discardAll (s : State) (freed : AppenderId → Bool) : State :=
  s.live.foldl (fun s id ↦ s.discard id (freed id)) s

/-- A new appender object; one whose columns are refused is closed at once. -/
def create (s : State) (id : AppenderId) (columns : Bool) : State :=
  if s.appenders id = none then
    let linked := { s with live := id :: s.live }
    if columns then linked.put id ⟨some [], false⟩ else linked.poison id []
  else s

end State

inductive Event
  | create (id : AppenderId) (columns : Bool)
  | appendRow (id : AppenderId) (o : Appending)
  | flush (id : AppenderId) (o : Flushing)
  | close (id : AppenderId) (o : Flushing)
  | release (id : AppenderId) (o : Releasing)
  | disconnect (o : AppenderId → Releasing)
  | rollback (freed : AppenderId → Bool)

def step (s : State) : Event → State
  | .create id columns => s.create id columns
  | .appendRow id o => (s.appendRow id o).1
  | .flush id o => (s.flush id o).1
  | .close id o => (s.close id o).1
  | .release id o => (s.releaseNative id o).1
  | .disconnect o => s.releaseAll o
  | .rollback freed => s.discardAll freed

namespace State

def log (s : State) : List Row := s.trace.flatMap Called.wrote

def buffered (s : State) (id : AppenderId) : List Row :=
  ((s.appenders id).bind Appender.native).getD []

def dead (s : State) (id : AppenderId) : Prop :=
  ∃ a, s.appenders id = some a ∧ (a.native = none ∨ a.closed = true)

def opened (s : State) (id : AppenderId) : Prop :=
  ∃ buffer closed, s.appenders id = some ⟨some buffer, closed⟩

end State

end PdoDuckdb.Appenders
