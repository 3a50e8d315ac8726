import PdoDuckdb.Structures.Frames
import PdoDuckdb.Value.Json

namespace PdoDuckdb.Structures

open Library Value Byte
open Cells (htMaxSize)

section Json

variable (decode : List Byte → Option (List Byte))

def space (rest : List Byte) : List Byte := rest.dropWhile Json.isSpace

/-- `pdo_duckdb_json_string`, at a quote. The token is given back however the
call of `php_json_decode_ex` ends. -/
def jsonString (rest : List Byte) (o : Slot) : Reading (List Byte) :=
  match Json.stringEnd rest.tail with
  | none => fail "DuckDB JSON contains an unterminated string"
  | some after => do
    request
    match decode (rest.take (rest.length - after.length)) with
    | none => do
      setZval o .null
      fail "DuckDB JSON contains an invalid string"
    | some s => do
      setString o s
      pure after

/-- `pdo_duckdb_json_number`. -/
def jsonNumber (rest : List Byte) (o : Slot) : Reading (List Byte) :=
  match Json.numberEnd rest with
  | none => fail "DuckDB JSON contains an invalid number"
  | some after => do
    tag o (ascii "number")
    insertString o (ascii "value") (rest.take (rest.length - after.length))
    pure after

def jsonKey (depth : ℕ) (rest : List Byte) : Reading (List Byte) :=
  if (space rest).head? = some doubleQuote then do
    let after ← jsonString decode (space rest) (.key depth)
    if (space after).head? = some colon then pure (space after).tail else fail Json.syntaxMessage
  else fail Json.syntaxMessage

def jsonKeyed (depth : ℕ) (object : Bool) (rest : List Byte) : Reading (List Byte) :=
  if object then jsonKey decode depth rest else pure rest

def jsonValue (child : List Byte → Slot → Reading (List Byte)) (depth : ℕ) (object : Bool)
    (rest : List Byte) : Reading (List Byte) := do
  let after ← child rest (.item depth)
  if object then do
    newArray (.entry depth)
    insert (.entry depth) (ascii "key") (.key depth)
    insert (.entry depth) (ascii "value") (.item depth)
    append (.payload depth) (.entry depth)
    pure after
  else do
    append (.payload depth) (.item depth)
    pure after

/-- `zend_hash_num_elements`. -/
def Built.numElements : Built → ℕ
  | .array _ entries => entries.length
  | _ => 0

/-- The size limit, at the top of the loop. -/
def jsonCount (depth : ℕ) : Reading PUnit := fun s ↦
  if (s.1.zvals (.payload depth)).map Built.numElements = some htMaxSize then
    fail "DuckDB JSON exceeds PHP's array size limit" s
  else (.ok ⟨⟩, s)

/-- The loop over the elements of an array or the members of an object, up to
the closing byte. It takes a byte in every turn. -/
def jsonElements (child : List Byte → Slot → Reading (List Byte)) (depth : ℕ) (object : Bool) :
    ℕ → List Byte → Reading (List Byte)
  | 0, _ => Exits.exit .unending
  | fuel + 1, rest => do
    jsonCount depth
    let keyed ← jsonKeyed decode depth object rest
    let after ← jsonValue child depth object keyed
    match space after with
    | [] => fail Json.syntaxMessage
    | c :: after =>
      if c = Json.closing object then pure after
      else if c ≠ comma then fail Json.syntaxMessage
      else jsonElements child depth object fuel after

def jsonMembers (child : List Byte → Slot → Reading (List Byte)) (depth : ℕ) (object : Bool)
    (rest : List Byte) : Reading (List Byte) :=
  if (space rest).head? = some (Json.closing object) then pure (space rest).tail
  else jsonElements decode child depth object ((space rest).length + 1) (space rest)

def jsonContainer (child : List Byte → Slot → Reading (List Byte)) (depth : ℕ) (object : Bool)
    (rest : List Byte) (o : Slot) : Reading (List Byte) := do
  newArray (.payload depth)
  let after ← jsonMembers decode child depth object rest
  if object then do
    tag o (ascii "object")
    insert o (ascii "value") (.payload depth)
    pure after
  else do
    moveZval (.payload depth) o
    pure after

def jsonLiteral (rest : List Byte) (o : Slot) : Reading (List Byte) :=
  if (ascii "null").isPrefixOf rest then do
    setZval o .null
    pure (rest.drop 4)
  else if (ascii "true").isPrefixOf rest then do
    setZval o (.bool true)
    pure (rest.drop 4)
  else if (ascii "false").isPrefixOf rest then do
    setZval o (.bool false)
    pure (rest.drop 5)
  else fail Json.syntaxMessage

/-- `pdo_duckdb_json_node_impl`. -/
def jsonImpl (child : List Byte → Slot → Reading (List Byte)) (depth : ℕ) (rest : List Byte)
    (o : Slot) : Reading (List Byte) :=
  match space rest with
  | [] => fail "DuckDB JSON ends before its value"
  | c :: rest =>
    if c = doubleQuote then jsonString decode (c :: rest) o
    else if c = minus ∨ isDigit c ∨ Json.word (c :: rest) Json.nan ∨ Json.word (c :: rest) Json.inf then
      jsonNumber (c :: rest) o
    else if c = openBracket then jsonContainer decode child depth false rest o
    else if c = openBrace then jsonContainer decode child depth true rest o
    else jsonLiteral (c :: rest) o

/-- `pdo_duckdb_json_node`, by the levels that are left below the limit: a text,
and what it leaves of the text. -/
def jsonBelow : ℕ → ℕ → List Byte → Slot → Reading (List Byte)
  | 0, _, _, _ => fail depthMessage
  | levels + 1, depth, rest, o => withFrame depth do
    atFrame depth
    jsonImpl decode (jsonBelow levels (depth + 1)) depth rest o

/-- `pdo_duckdb_json_node`. -/
def jsonNode (depth : ℕ) (rest : List Byte) (o : Slot) : Reading (List Byte) :=
  jsonBelow decode (valueDepth - depth) depth rest o

end Json

end PdoDuckdb.Structures
