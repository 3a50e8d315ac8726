import PdoDuckdb.Cells.Php
import PdoDuckdb.Library.Exits
import PdoDuckdb.Library.Custody
import Mathlib.Data.Int.Init

namespace PdoDuckdb.Cells

open Library

inductive IntegerType
  | tinyint | smallint | integer | bigint | hugeint
  | utinyint | usmallint | uinteger | ubigint | uhugeint
deriving DecidableEq, Repr

/-- A `duckdb_type` without children. -/
inductive LeafType
  | sqlNull | boolean
  | integer (type : IntegerType)
  | float | double
  | varchar (typeAlias : List Byte)
  | blob | variant | geometry
  | other (id : ℕ)
deriving DecidableEq, Repr

/-- A `duckdb_logical_type`. The names of a struct that is no tuple differ. -/
inductive ColumnType
  | leaf (type : LeafType)
  | list (child : ColumnType)
  | array (child : ColumnType) (size : ℕ)
  | struct (tuple : Bool) (names : List (List Byte)) (distinct : tuple = false → names.Nodup)
      (child : Fin names.length → ColumnType)
  | map (key value : ColumnType)
  | union (names : List (List Byte)) (member : Fin names.length → ColumnType)

/-- `pdo_duckdb_appender_desc`. -/
inductive Desc
  | leaf (type : LeafType)
  | list (child : Desc)
  | array (child : Desc) (size : ℕ)
  | struct (tuple : Bool) (names : List (List Byte)) (distinct : tuple = false → names.Nodup)
      (child : Fin names.length → Desc)
  | map (key value : Desc)

/-- `DUCKDB_TYPE_UNION`. -/
def unionId : ℕ := 28

/-- `pdo_duckdb_appender_desc_fill`, which has no children for a UNION. -/
def ColumnType.descFill : ColumnType → Desc
  | .leaf type => .leaf type
  | .list child => .list child.descFill
  | .array child size => .array child.descFill size
  | .struct tuple names distinct child => .struct tuple names distinct fun i ↦ (child i).descFill
  | .map key value => .map key.descFill value.descFill
  | .union _ _ => .leaf (.other unionId)

/-- What the engine has as a value without children. `rendered` is of a type that
only the engine prints, `unknown` of one that the driver does not know. -/
inductive Scalar
  | bool (b : Bool)
  | integer (type : IntegerType) (n : ℤ)
  | float (bits : UInt32)
  | double (bits : UInt64)
  | varchar (s : List Byte)
  | blob (s : List Byte)
  | geometry (s : List Byte)
  | rendered (id : ℕ) (text : Option (List Byte))
  | unknown (id : ℕ)
deriving DecidableEq, Repr

inductive Node
  | null
  | scalar (v : Scalar)
  | array (items : List Node)
  | object (members : List (List Byte × Node))

/-- What a `duckdb_value` holds. -/
inductive Native
  | null
  | scalar (v : Scalar)
  | list (items : List Native)
  | array (items : List Native)
  | struct (fields : List Native)
  | map (entries : List (Native × Native))
  | variant (node : Node)

/-- A `duckdb_value`, under its address. -/
abbrev Handle := ℕ × Native

/-- A `zend_string` that the conversion has made, under its address. -/
abbrev StringHandle := ℕ × List Byte

inductive Memory
  | granted
  | exhausted
  | bailout
deriving DecidableEq, Repr

inductive ErrorClass
  | valueError
  | typeError
  | pdoException
deriving DecidableEq, Repr

/-- Why a conversion ends without a value. `outOfFrames` is an access outside
the array of frames. -/
inductive Stop
  | refused (kind : ErrorClass) (message : String)
  | exhausted
  | bailout
  | outOfFrames
deriving DecidableEq, Repr

/-- What the values and the strings are created in, and how the requests for
memory are met, by their number. -/
structure World where
  values : Custody Native
  strings : Custody (List Byte)
  memory : ℕ → Memory
  allocations : ℕ

/-- What the conversion has from the engine: the strings that
`duckdb_create_varchar_length` takes, the C casts to floating point, and whether
it makes a nested value of a type out of values. -/
structure Engine where
  validUtf8 : List Byte → Bool
  floatOfLong : Int64 → UInt32
  doubleOfLong : Int64 → UInt64
  createsNested : Desc → List Native → Bool

def World.allocate (w : World) : World := { w with allocations := w.allocations + 1 }

def allocate : Exits Stop World PUnit := fun w ↦
  match w.memory w.allocations with
  | .granted => (.ok ⟨⟩, w.allocate)
  | .exhausted => (.error .exhausted, w.allocate)
  | .bailout => (.error .bailout, w.allocate)

/-- An exception takes memory. -/
def refuse {α : Type} (kind : ErrorClass) (message : String) : Exits Stop World α := do
  allocate
  Exits.exit (.refused kind message)

def create (v : Native) : Exits Stop World Handle :=
  Exits.step fun w ↦ ((w.values.create v).1, { w with values := (w.values.create v).2 })

def useValues (hs : List Handle) : Exits Stop World PUnit :=
  Exits.step fun w ↦ (⟨⟩, { w with values := w.values.use hs })

def World.destroyAll (w : World) (hs : List Handle) : World :=
  { w with values := w.values.releaseAll hs }

def World.releaseStrings (w : World) (ss : List StringHandle) : World :=
  { w with strings := w.strings.releaseAll ss }

def appendRow (text : String) : String := "Pdo\\Duckdb\\Appender::appendRow(): " ++ text

/-- The bounds of `pdo_duckdb_validate_integer_range`; the other types take every
integer. -/
def IntegerType.inRange (l : ℤ) : IntegerType → Bool
  | .tinyint => -0x80 ≤ l && l ≤ 0x7f
  | .smallint => -0x8000 ≤ l && l ≤ 0x7fff
  | .integer => -0x80000000 ≤ l && l ≤ 0x7fffffff
  | .utinyint => 0 ≤ l && l ≤ 0xff
  | .usmallint => 0 ≤ l && l ≤ 0xffff
  | .uinteger => 0 ≤ l && l % 0x10000000000000000 ≤ 0xffffffff
  | .ubigint | .uhugeint => 0 ≤ l
  | .bigint | .hugeint => true

/-- `pdo_duckdb_validate_integer_range`. -/
def validateIntegerRange (l : Int64) : LeafType → Bool
  | .integer type => type.inRange l.toInt
  | _ => true

def IntegerType.cast (l : ℤ) : IntegerType → ℤ
  | .tinyint => l.bmod 0x100
  | .smallint => l.bmod 0x10000
  | .integer => l.bmod 0x100000000
  | .utinyint => l % 0x100
  | .usmallint => l % 0x10000
  | .uinteger => l % 0x100000000
  | .ubigint | .uhugeint => l % 0x10000000000000000
  | .hugeint => (if l < 0 then -1 else 0) * 0x10000000000000000 + l % 0x10000000000000000
  | .bigint => l

/-- The `IS_LONG` branch of `pdo_duckdb_make_leaf`. -/
def makeLong (engine : Engine) (l : Int64) : LeafType → Scalar
  | .boolean => .bool (l ≠ 0)
  | .integer type => .integer type (type.cast l.toInt)
  | .float => .float (engine.floatOfLong l)
  | .double => .double (engine.doubleOfLong l)
  | _ => .integer .bigint l.toInt

/-- What `pdo_duckdb_make_leaf` returns: a value to create, `NULL` after an
exception, or `NULL`. -/
inductive Leaf
  | value (v : Native)
  | thrown (kind : ErrorClass) (message : String)
  | unsupported

/-- `pdo_duckdb_make_leaf`. -/
def makeLeaf (engine : Engine) (z : Zval) (type : LeafType) (argpos : ℕ) : Leaf :=
  match z with
  | .null => .value .null
  | .bool b => .value (.scalar (.bool b))
  | .double bits => .value (.scalar (.double bits))
  | .string s =>
    if type = .blob then .value (.scalar (.blob s))
    else if engine.validUtf8 s then .value (.scalar (.varchar s))
    else .unsupported
  | .long l =>
    if validateIntegerRange l type then .value (.scalar (makeLong engine l type))
    else .thrown .valueError (appendRow
      s!"argument #{argpos} integer {l} is out of range for the target column type")
  | _ => .unsupported

/-- The value of a leaf, or the exception; `unsupported` is thrown by the caller. -/
def Leaf.build (leaf : Leaf) (kind : ErrorClass) (message : String) : Exits Stop World Handle :=
  match leaf with
  | .value v => create v
  | .thrown kind message => refuse kind message
  | .unsupported => refuse kind message

end PdoDuckdb.Cells
