import PdoDuckdb.Statement.Caches

namespace PdoDuckdb.Nested

open Byte

/-- What `duckdb_decimal_internal_type` answers. -/
inductive DecimalStorage
  | smallint | integer | bigint | hugeint
  | other (id : ℕ)
deriving DecidableEq, Repr

/-- A `duckdb_type` that is not nested. -/
inductive ScalarType
  | sqlNull | boolean
  | tinyint | smallint | integer | bigint
  | utinyint | usmallint | uinteger | ubigint | hugeint | uhugeint
  | date | timestamp | time
  | float | double | varchar | uuid
  | decimal (width scale : ℕ) (internal : DecimalStorage)
  | other (id : ℕ)
deriving DecidableEq, Repr

inductive LogicalType
  | scalar (type : ScalarType)
  | list (child : LogicalType)
  | array (child : LogicalType) (size : ℕ)
  | struct (tuple : Bool) (fields : List (List Byte × LogicalType))
  | map (key value : LogicalType)
  | union (members : List LogicalType)

/-- `pdo_duckdb_nested_render_type`. -/
inductive RenderType
  | scalar (type : ScalarType)
  | list (child : RenderType)
  | array (child : RenderType) (size : ℕ)
  | struct (fields : List (List Byte × RenderType))
  | map (key value : RenderType)
  | union (members : List RenderType)

/-- `pdo_duckdb_decimal_type_fast_safe`. -/
def decimalTypeFastSafe (width scale : ℕ) (internal : DecimalStorage) : Bool :=
  Statement.decimalMetaOk width scale &&
    (internal = .smallint || internal = .integer || internal = .bigint || internal = .hugeint)

/-- The scalar types at the end of `pdo_duckdb_nested_render_type_build`. -/
def ScalarType.isRendered : ScalarType → Bool
  | .decimal width scale internal => decimalTypeFastSafe width scale internal
  | .other _ => false
  | _ => true

/-- `pdo_duckdb_struct_name_is_fast_safe`. -/
def structNameIsFastSafe (name : List Byte) : Bool :=
  name.all fun c ↦ isLetter c || isDigit c || c == underscore

/-- The name as a C string, which ends at its first NUL. -/
def cName (name : List Byte) : List Byte := name.takeWhile (· ≠ 0)

/-- A field name is taken when the C string has all of it. -/
def fieldName (name : List Byte) : Option (List Byte) :=
  if name.length = (cName name).length ∧ structNameIsFastSafe (cName name) then some (cName name)
  else none

mutual

/-- `pdo_duckdb_nested_render_type_build`. -/
def nestedRenderTypeBuild : LogicalType → Option RenderType
  | .scalar type => if type.isRendered then some (.scalar type) else none
  | .list child => (nestedRenderTypeBuild child).map .list
  | .array child size => (nestedRenderTypeBuild child).map (.array · size)
  | .struct true _ => none
  | .struct false fields => (buildFields fields).map .struct
  | .map key value =>
    (nestedRenderTypeBuild key).bind fun k ↦ (nestedRenderTypeBuild value).map (.map k)
  | .union members => (buildMembers members).map .union

def buildFields : List (List Byte × LogicalType) → Option (List (List Byte × RenderType))
  | [] => some []
  | (name, child) :: rest =>
    (fieldName name).bind fun name ↦ (nestedRenderTypeBuild child).bind fun child ↦
      (buildFields rest).map ((name, child) :: ·)

def buildMembers : List LogicalType → Option (List RenderType)
  | [] => some []
  | member :: rest =>
    (nestedRenderTypeBuild member).bind fun member ↦ (buildMembers rest).map (member :: ·)

end

/-- One item of a vector's data array: a `bool`, an integer, the two halves of a
128-bit integer, the bits of a float or a double, or the bytes of a string. -/
inductive Datum
  | bool (b : Bool)
  | signed (n : ℤ)
  | unsigned (n : ℕ)
  | huge (upper lower : UInt64)
  | float (bits : UInt32)
  | double (bits : UInt64)
  | bytes (s : List Byte)
deriving DecidableEq, Repr

def ScalarType.holds : ScalarType → Datum → Bool
  | .boolean, .bool _ => true
  | .tinyint, .signed _ | .smallint, .signed _ | .integer, .signed _ | .bigint, .signed _ => true
  | .utinyint, .unsigned _ | .usmallint, .unsigned _ | .uinteger, .unsigned _ => true
  | .ubigint, .unsigned _ => true
  | .hugeint, .huge _ _ | .uhugeint, .huge _ _ | .uuid, .huge _ _ => true
  | .date, .signed _ | .timestamp, .signed _ | .time, .signed _ => true
  | .float, .float _ | .double, .double _ | .varchar, .bytes _ => true
  | .decimal _ _ .hugeint, .huge _ _ => true
  | .decimal _ _ .smallint, .signed _ | .decimal _ _ .integer, .signed _ => true
  | .decimal _ _ .bigint, .signed _ => true
  | _, _ => false

/-- `(idx_t)-1`. -/
def idxMax : ℕ := 0xffffffffffffffff

/-- `duckdb_list_entry`. -/
structure ListEntry where
  offset : ℕ
  length : ℕ
deriving DecidableEq, Repr

/-- A vector of a chunk. A MAP is a list of structs of a key and a value, and a
UNION a struct of its tag and its members. -/
inductive Vector
  | flat (validity : Option (ℕ → Bool)) (data : ℕ → Datum)
  | list (validity : Option (ℕ → Bool)) (entries : ℕ → ListEntry) (size : ℕ) (child : Vector)
  | array (validity : Option (ℕ → Bool)) (child : Vector)
  | struct (validity : Option (ℕ → Bool)) (children : List Vector)

namespace Vector

/-- `duckdb_vector_get_validity`. -/
def validity : Vector → Option (ℕ → Bool)
  | .flat v _ | .list v _ _ _ | .array v _ | .struct v _ => v

def isNull (vec : Vector) (row : ℕ) : Bool := vec.validity.any fun valid ↦ !valid row

def datum : Vector → ℕ → Option Datum
  | .flat _ data, row => some (data row)
  | _, _ => none

/-- A row of the data of a LIST or MAP vector, with the child vector and its size. -/
def listEntry : Vector → ℕ → Option (ListEntry × ℕ × Vector)
  | .list _ entries size child, row => some (entries row, size, child)
  | _, _ => none

/-- `duckdb_array_vector_get_child`. -/
def arrayChild : Vector → Option Vector
  | .array _ child => some child
  | _ => none

/-- `duckdb_struct_vector_get_child`. -/
def structChild : Vector → ℕ → Option Vector
  | .struct _ children, i => children[i]?
  | _, _ => none

/-- The tag of a UNION row, read from the data of the first child. -/
def unionTag (vec : Vector) (row : ℕ) : Option ℕ :=
  match (vec.structChild 0).bind (·.datum row) with
  | some (.unsigned tag) => some tag
  | _ => none

end Vector

/-- A `duckdb::Value`. -/
inductive Value
  | null
  | scalar (type : ScalarType) (d : Datum)
  | list (items : List Value)
  | array (items : List Value)
  | struct (tuple : Bool) (fields : List (List Byte × Value))
  | map (entries : List (Value × Value))
  | union (tag : ℕ) (member : Value)

def rows {α : Type} (f : ℕ → Option α) (offset n : ℕ) : Option (List α) :=
  (List.range n).mapM fun i ↦ f (offset + i)

def structRow {α : Type} (vec : Vector) (row : ℕ) :
    ℕ → List (Vector → ℕ → Option α) → Option (List α)
  | _, [] => some []
  | i, f :: rest => (vec.structChild i).bind fun child ↦ (f child row).bind fun a ↦
      (structRow vec row (i + 1) rest).map (a :: ·)

mutual

/-- The value in a row of a vector, by the layout of vectors: `none` where the
vector is not one of the type. -/
def LogicalType.value : LogicalType → Vector → ℕ → Option Value
  | .scalar type => fun vec row ↦
    if vec.isNull row then some .null
    else (vec.datum row).bind fun d ↦
      if type = .sqlNull then some .null
      else if type.holds d then some (.scalar type d)
      else none
  | .list child => fun vec row ↦
    if vec.isNull row then some .null
    else (vec.listEntry row).bind fun (e, size, items) ↦
      if e.offset + e.length ≤ size then (rows (child.value items) e.offset e.length).map .list
      else none
  | .array child n => fun vec row ↦
    if vec.isNull row then some .null
    else vec.arrayChild.bind fun items ↦
      if (row + 1) * n ≤ idxMax + 1 then (rows (child.value items) (row * n) n).map .array else none
  | .struct tuple fields => fun vec row ↦
    if vec.isNull row then some .null
    else (structRow vec row 0 (fieldValues fields)).map (.struct tuple)
  | .map key item => fun vec row ↦
    if vec.isNull row then some .null
    else (vec.listEntry row).bind fun (e, size, entries) ↦
      (entries.structChild 0).bind fun keys ↦ (entries.structChild 1).bind fun values ↦
        if e.offset + e.length ≤ size then
          (rows (fun i ↦ (key.value keys i).bind fun k ↦ (item.value values i).map (k, ·))
            e.offset e.length).map .map
        else none
  | .union members => fun vec row ↦
    if vec.isNull row then some .null
    else (vec.unionTag row).bind fun tag ↦ ((memberValues members)[tag]?).bind fun member ↦
      (vec.structChild (tag + 1)).bind fun child ↦ (member child row).map (.union tag)

def fieldValues : List (List Byte × LogicalType) →
    List (Vector → ℕ → Option (List Byte × Value))
  | [] => []
  | (name, child) :: rest =>
    (fun vec row ↦ (child.value vec row).map (name, ·)) :: fieldValues rest

def memberValues : List LogicalType → List (Vector → ℕ → Option Value)
  | [] => []
  | member :: rest => member.value :: memberValues rest

end

end PdoDuckdb.Nested
