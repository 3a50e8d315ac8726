import PdoDuckdb.Value.Context

namespace PdoDuckdb.Value.Json

open Byte

/-- The rest of the input, the frames, and the message of a failure. -/
structure Reader where
  rest : List Byte
  frames : Frames
  message : Option String

/-- What a reading function returns: `SUCCESS` or `FAILURE`, what it has put into
its `out` argument, and the reader. After a failure nothing looks at the input. -/
structure Read where
  status : Bool
  out : Option Zval
  reader : Reader

def isSpace (c : Byte) : Bool := c == 0x20 || c == 0x09 || c == 0x0d || c == 0x0a

namespace Reader

def setFrame (r : Reader) (depth : ℕ) (f : Frame) : Reader :=
  { r with frames := Function.update r.frames depth f }

/-- `pdo_duckdb_json_space`. -/
def space (r : Reader) : Reader := { r with rest := r.rest.dropWhile isSpace }

/-- `pdo_duckdb_value_fail`, with what is in `out` by then. -/
def fail (r : Reader) (message : String) (out : Option Zval) : Read :=
  ⟨false, out, { r with message := some message }⟩

end Reader

/-- The input after a string whose opening quote has been passed, `none` where
the string does not end. -/
def stringEnd : List Byte → Option (List Byte)
  | [] => none
  | [c] => if c = doubleQuote then some [] else none
  | c :: d :: rest =>
    if c = backslash then stringEnd rest
    else if c = doubleQuote then some (d :: rest)
    else stringEnd (d :: rest)

/-- `pdo_duckdb_json_string`, at a quote. `decode` is `php_json_decode_ex` on the
token, which leaves `NULL` when it fails. -/
def string (decode : List Byte → Option (List Byte)) (r : Reader) : Read :=
  match stringEnd r.rest.tail with
  | none =>
    { r with rest := [] }.fail "DuckDB JSON contains an unterminated string" none
  | some rest =>
    match decode (r.rest.take (r.rest.length - rest.length)) with
    | none => { r with rest := rest }.fail "DuckDB JSON contains an invalid string" (some .null)
    | some s => ⟨true, some (.string s), { r with rest := rest }⟩

/-- `pdo_duckdb_json_word`: the input starts with the word, in either case. -/
def word : List Byte → List Byte → Bool
  | _, [] => true
  | [], _ :: _ => false
  | c :: rest, w :: ws => c ||| 0x20 == w && word rest ws

def nan : List Byte := ascii "nan"
def infinity : List Byte := ascii "infinity"
def inf : List Byte := ascii "inf"

def digitsEnd : List Byte → Option (List Byte)
  | [] => none
  | c :: rest => if isDigit c then some (rest.dropWhile isDigit) else none

def integerEnd : List Byte → Option (List Byte)
  | [] => none
  | c :: rest =>
    if c = 0x30 then some rest
    else if 0x31 ≤ c ∧ c ≤ 0x39 then some (rest.dropWhile isDigit)
    else none

def fractionEnd : List Byte → Option (List Byte)
  | [] => some []
  | c :: rest => if c = 0x2e then digitsEnd rest else some (c :: rest)

def dropSign : List Byte → List Byte
  | [] => []
  | c :: rest => if c = 0x2b ∨ c = minus then rest else c :: rest

def exponentEnd : List Byte → Option (List Byte)
  | [] => some []
  | c :: rest => if c = 0x65 ∨ c = 0x45 then digitsEnd (dropSign rest) else some (c :: rest)

def unsignedEnd (s : List Byte) : Option (List Byte) :=
  if s = [] then none
  else if word s nan then some (s.drop nan.length)
  else if word s infinity then some (s.drop infinity.length)
  else if word s inf then some (s.drop inf.length)
  else (integerEnd s).bind fun s ↦ (fractionEnd s).bind exponentEnd

def numberEnd (s : List Byte) : Option (List Byte) :=
  unsignedEnd (if s.head? = some minus then s.tail else s)

/-- `pdo_duckdb_json_number`. -/
def number (r : Reader) : Read :=
  match numberEnd r.rest with
  | none => r.fail "DuckDB JSON contains an invalid number" none
  | some rest =>
    let lexeme := r.rest.take (r.rest.length - rest.length)
    ⟨true, some ((Zval.tag (ascii "number")).insert (ascii "value") (.string lexeme)),
      { r with rest := rest }⟩

def syntaxMessage : String := "DuckDB JSON contains invalid syntax"

def keyColon (r : Reader) : Read :=
  let r := r.space
  if r.rest.head? = some colon then ⟨true, none, { r with rest := r.rest.tail }⟩
  else r.fail syntaxMessage none

def memberKey (decode : List Byte → Option (List Byte)) (depth : ℕ) (r : Reader) : Read :=
  let r := r.space
  if r.rest.head? = some doubleQuote then
    let read := string decode r
    let r := read.reader.setFrame depth { read.reader.frames depth with key := read.out }
    if read.status then keyColon r else ⟨false, none, r⟩
  else r.fail syntaxMessage none

def store (object : Bool) (f : Frame) : Frame :=
  let payload := f.payload.getD .null
  let item := f.item.getD .null
  if object then
    let entry := ((Zval.array []).insert (ascii "key") (f.key.getD .null)).insert
      (ascii "value") item
    ⟨none, none, none, some (payload.append entry)⟩
  else { f with item := none, payload := some (payload.append item) }

def closing (object : Bool) : Byte := if object then closeBrace else closeBracket

/-- Put what a value was read into in the frame, and store it if it was read. -/
def storeItem (depth : ℕ) (object : Bool) (read : Read) : Read :=
  let f := { read.reader.frames depth with item := read.out }
  if read.status then ⟨true, none, read.reader.setFrame depth (store object f)⟩
  else ⟨false, none, read.reader.setFrame depth f⟩

def readItem (decode : List Byte → Option (List Byte)) (child : Reader → Option Read)
    (depth : ℕ) (object : Bool) (r : Reader) : Option Read :=
  let keyed := if object then memberKey decode depth r else ⟨true, none, r⟩
  if keyed.status then (child keyed.reader).map (storeItem depth object) else some keyed

/-- The loop over the elements of an array or the members of an object, up to
the closing byte. It takes a byte in every turn; `none` is a loop cut short. -/
def elements (decode : List Byte → Option (List Byte)) (limit : ℕ)
    (child : Reader → Option Read) (depth : ℕ) (object : Bool) : ℕ → Reader → Option Read
  | 0, _ => none
  | fuel + 1, r =>
    if ((r.frames depth).payload.getD .null).numElements = limit then
      some (r.fail "DuckDB JSON exceeds PHP's array size limit" none)
    else
      (readItem decode child depth object r).bind fun read ↦
        if ¬ read.status then some read
        else
          let r := read.reader.space
          match r.rest with
          | [] => some (r.fail syntaxMessage none)
          | c :: rest =>
            let r := { r with rest := rest }
            if c = closing object then some ⟨true, none, r⟩
            else if c ≠ comma then some (r.fail syntaxMessage none)
            else elements decode limit child depth object fuel r

/-- Move the payload of a frame to `out`. -/
def takePayload (depth : ℕ) (object : Bool) (read : Read) : Read :=
  let payload := (read.reader.frames depth).payload.getD .null
  if read.status then
    { read with out := some (if object then
        (Zval.tag (ascii "object")).insert (ascii "value") payload else payload) }
  else read

def container (decode : List Byte → Option (List Byte)) (limit : ℕ)
    (child : Reader → Option Read) (depth : ℕ) (object : Bool) (r : Reader) : Option Read :=
  let r := (r.setFrame depth { r.frames depth with payload := some (.array []) }).space
  if r.rest.head? = some (closing object) then
    some (takePayload depth object ⟨true, none, { r with rest := r.rest.tail }⟩)
  else
    (elements decode limit child depth object (r.rest.length + 1) r).map (takePayload depth object)

def literal (r : Reader) : Read :=
  if (ascii "null").isPrefixOf r.rest then ⟨true, some .null, { r with rest := r.rest.drop 4 }⟩
  else if (ascii "true").isPrefixOf r.rest then
    ⟨true, some (.bool true), { r with rest := r.rest.drop 4 }⟩
  else if (ascii "false").isPrefixOf r.rest then
    ⟨true, some (.bool false), { r with rest := r.rest.drop 5 }⟩
  else r.fail syntaxMessage none

/-- `pdo_duckdb_json_node_impl` at a byte that is no space; `child` is
`pdo_duckdb_json_node` one level down. -/
def dispatch (decode : List Byte → Option (List Byte)) (limit : ℕ)
    (child : Reader → Option Read) (depth : ℕ) (r : Reader) (c : Byte) (rest : List Byte) :
    Option Read :=
  if c = doubleQuote then some (string decode r)
  else if c = minus ∨ isDigit c ∨ word r.rest nan ∨ word r.rest inf then some (number r)
  else if c = openBracket then container decode limit child depth false { r with rest := rest }
  else if c = openBrace then container decode limit child depth true { r with rest := rest }
  else some (literal r)

def nodeImpl (decode : List Byte → Option (List Byte)) (limit : ℕ)
    (child : Reader → Option Read) (depth : ℕ) (r : Reader) : Option Read :=
  let r := r.space
  match r.rest with
  | [] => some (r.fail "DuckDB JSON ends before its value" none)
  | c :: rest => dispatch decode limit child depth r c rest

/-- `pdo_duckdb_json_node`, by the levels that are left below the limit. -/
def nodeBelow (decode : List Byte → Option (List Byte)) (limit : ℕ) :
    ℕ → ℕ → Reader → Option Read
  | 0, _, r => some (r.fail depthMessage none)
  | levels + 1, depth, r =>
    (nodeImpl decode limit (nodeBelow decode limit levels (depth + 1)) depth r).map fun read ↦
      { read with reader := read.reader.setFrame depth .clear }

def node (decode : List Byte → Option (List Byte)) (limit depth : ℕ) (r : Reader) : Option Read :=
  nodeBelow decode limit (valueDepth - depth) depth r

/-- What follows the value, and the tag around it. -/
def finish (depth : ℕ) (read : Read) : Read :=
  let out := Zval.tag (ascii "JSON")
  let r := read.reader.setFrame depth { read.reader.frames depth with item := read.out }
  if ¬ read.status then ⟨false, some out, r⟩
  else if r.space.rest ≠ [] then r.space.fail "DuckDB JSON has trailing data" (some out)
  else
    let f := r.frames depth
    ⟨true, some (out.insert (ascii "value") (f.item.getD .null)),
      r.space.setFrame depth { f with item := none }⟩

/-- The JSON branch of `pdo_duckdb_value_native_impl`. -/
def nativeImpl (decode : List Byte → Option (List Byte)) (limit depth : ℕ) (r : Reader) :
    Option Read :=
  (node decode limit (depth + 1) r).map (finish depth)

/-- `pdo_duckdb_value_native_at` on a JSON text. -/
def native (decode : List Byte → Option (List Byte)) (limit depth : ℕ) (r : Reader) :
    Option Read :=
  if valueDepth ≤ depth then some (r.fail depthMessage none)
  else (nativeImpl decode limit depth r).map fun read ↦
    { read with reader := read.reader.setFrame depth .clear }

/-- The end of `pdo_duckdb_value_convert`: what was built is dropped after a
failure. -/
def Read.converted (read : Read) : Option Zval := if read.status then read.out else none

end PdoDuckdb.Value.Json
