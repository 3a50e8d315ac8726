import PdoDuckdb.Library.Collecting
import PdoDuckdb.Nested.Scalars

namespace PdoDuckdb.Nested

open Byte Library.Collecting

/-- Texts between brackets, with `, ` from one to the next. -/
def enclosed (left right : Byte) (texts : List (List Byte)) : List Byte :=
  left :: ([comma, space].intercalate texts ++ [right])

section Renderer

variable (v2 : Bool) (engine : Engine)

mutual

/-- What `pdo_duckdb_fast_nested_cell_to_smart_str` appends; `none` is its `false`. -/
def fastNestedCell : RenderType → Vector → ℕ → Bool → Option (List Byte)
  | .scalar type => fun vec row escapeVarchar ↦
    if vec.isNull row then some (ascii "NULL")
    else (vec.datum row).bind (smartAppendFastScalar v2 engine escapeVarchar type)
  | .list child => fun vec row _ ↦
    if vec.isNull row then some (ascii "NULL")
    else (vec.listEntry row).bind fun (e, childSize, items) ↦
      if childSize < e.offset ∨ childSize - e.offset < e.length then none
      else (rows (fastNestedCell child items · true) e.offset e.length).map
        (enclosed openBracket closeBracket)
  | .array child n => fun vec row _ ↦
    if vec.isNull row then some (ascii "NULL")
    else vec.arrayChild.bind fun items ↦
      if n ≠ 0 ∧ idxMax / n < row then none
      else (rows (fun i ↦ fastNestedCell child items (i % (idxMax + 1)) v2) (row * n) n).map
        (enclosed openBracket closeBracket)
  | .struct fields => fun vec row _ ↦
    if vec.isNull row then some (ascii "NULL")
    else (structRow vec row 0 (fieldCells fields)).map (enclosed openBrace closeBrace)
  | .map key value => fun vec row _ ↦
    if vec.isNull row then some (ascii "NULL")
    else (vec.listEntry row).bind fun (e, entriesSize, entries) ↦
      if entriesSize < e.offset ∨ entriesSize - e.offset < e.length then none
      else (entries.structChild 0).bind fun kvec ↦ (entries.structChild 1).bind fun vvec ↦
        (rows (fun i ↦ (fastNestedCell key kvec i true).bind fun k ↦
          (fastNestedCell value vvec i true).map fun v ↦ k ++ equals :: v) e.offset e.length).map
            (enclosed openBrace closeBrace)
  | .union members => fun vec row _ ↦
    if vec.isNull row then some (ascii "NULL")
    else (vec.unionTag row).bind fun tag ↦ ((memberCells members)[tag]?).bind fun member ↦
      (vec.structChild (tag + 1)).bind fun child ↦ member child row false

def fieldCells : List (List Byte × RenderType) → List (Vector → ℕ → Option (List Byte))
  | [] => []
  | (name, child) :: rest =>
    (fun vec row ↦ (fastNestedCell child vec row true).map fun text ↦
      quote :: (name ++ ascii "': " ++ text)) :: fieldCells rest

def memberCells : List RenderType → List (Vector → ℕ → Bool → Option (List Byte))
  | [] => []
  | member :: rest => fastNestedCell member :: memberCells rest

end

/-- `pdo_duckdb_fast_nested_col_to_string`. -/
def fastNestedColToString (type : RenderType) (vec : Vector) (row : ℕ) : Option (List Byte) :=
  match type with
  | .scalar _ => none
  | _ => fastNestedCell v2 engine type vec row true

end Renderer

/-- What the bridge has of the engine: the cast of a scalar to VARCHAR, and the
quoting of a key. -/
structure Bridge where
  cast : ScalarType → Datum → List Byte
  quoteKey : List Byte → List Byte

section Bridge

variable (v2 : Bool) (bridge : Bridge)

/-- `nested_pdo`, over the text of `canonical_pdo`. -/
def nestedText (escape : Bool) (v : Value) (rendered : List Byte) : List Byte :=
  match v with
  | .null => ascii "NULL"
  | .scalar _ _ => if escape then quoteNested v2 rendered else rendered
  | _ => rendered

mutual

/-- The structural rule of `canonical_pdo`, at every level. -/
def canonicalPdo : Value → List Byte
  | .null => []
  | .scalar type d => bridge.cast type d
  | .list items => enclosed openBracket closeBracket (itemTexts true items)
  | .array items => enclosed openBracket closeBracket (itemTexts v2 items)
  | .struct true fields => enclosed leftParen rightParen (fieldTexts true fields)
  | .struct false fields => enclosed openBrace closeBrace (fieldTexts false fields)
  | .map entries => enclosed openBrace closeBrace (entryTexts entries)
  | .union _ member => nestedText v2 false member (canonicalPdo member)

def itemTexts (escape : Bool) : List Value → List (List Byte)
  | [] => []
  | v :: rest => nestedText v2 escape v (canonicalPdo v) :: itemTexts escape rest

def fieldTexts (tuple : Bool) : List (List Byte × Value) → List (List Byte)
  | [] => []
  | (name, v) :: rest =>
    ((if tuple then [] else bridge.quoteKey name ++ [colon, space]) ++
      nestedText v2 true v (canonicalPdo v)) :: fieldTexts tuple rest

def entryTexts : List (Value × Value) → List (List Byte)
  | [] => []
  | (k, v) :: rest =>
    (nestedText v2 true k (canonicalPdo k) ++ equals :: nestedText v2 true v (canonicalPdo v)) ::
      entryTexts rest

end

/-- `nested_pdo`. -/
def nestedPdo (escape : Bool) (v : Value) : List Byte :=
  nestedText v2 escape v (canonicalPdo v2 bridge v)

end Bridge

end PdoDuckdb.Nested
