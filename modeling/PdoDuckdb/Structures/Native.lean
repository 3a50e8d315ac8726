import PdoDuckdb.Structures.JsonText

namespace PdoDuckdb.Structures

open Library Value
open Cells (LeafType IntegerType Scalar Node htMaxSize)

/-- What the engine and the bridge answer: the cast of a float, the text of a
value, the declarations of types, and `php_json_decode_ex` on a string token. -/
structure Bridge where
  floatToDouble : UInt32 → UInt64
  render : Scalar → Option (List Byte)
  scalarDeclaration : Scalar → List Byte
  declaration : Vector → List Byte
  decode : List Byte → Option (List Byte)

section Scalars

/-- The integers that are read with `duckdb_get_int64`. -/
def fitsLong : IntegerType → Bool
  | .ubigint | .hugeint | .uhugeint => false
  | _ => true

/-- A digit of `pdo_duckdb_value_geometry`. -/
def upperHexDigit (n : ℕ) : Byte := ((ascii "0123456789ABCDEF")[n]?).getD 0

/-- The text of `pdo_duckdb_value_geometry`. -/
def geometryText (s : List Byte) : List Byte :=
  s.flatMap fun c ↦ [upperHexDigit (c.toNat / 16), upperHexDigit (c.toNat % 16)]

/-- `ZSTR_MAX_LEN`. -/
def zstrMaxLength : ℕ := 0xffffffffffffffe0

/-- `pdo_duckdb_value_geometry`. -/
def valueGeometry (s : List Byte) (o : Slot) : Reading PUnit :=
  if zstrMaxLength / 2 < s.length then fail "DuckDB geometry exceeds PHP's string size limit"
  else setString o (geometryText s)

/-- `pdo_duckdb_value_string`. -/
def valueString (B : Bridge) (depth : ℕ) (v : Scalar) (o : Slot) : Reading PUnit := do
  take (.bytes true depth)
  match B.render v with
  | none => setZval o .null
  | some s => setString o s

/-- `pdo_duckdb_value_scalar`. -/
def valueScalar (B : Bridge) (depth : ℕ) (v : Scalar) (o : Slot) : Reading PUnit :=
  match v with
  | .bool b => setZval o (.long (if b then 1 else 0))
  | .integer type n => if fitsLong type then setZval o (.long n) else valueString B depth v o
  | .float bits => setZval o (.double (B.floatToDouble bits))
  | .double bits => setZval o (.double bits)
  | .varchar s | .blob s => do
    take (.bytes true depth)
    setString o s
  | .geometry s => do
    take (.bytes true depth)
    valueGeometry s o
  | .rendered _ _ => valueString B depth v o
  | .unknown _ => fail "DuckDB scalar type is not supported by this pdo_duckdb build"

/-- `pdo_duckdb_value_count`. -/
def valueCount (count : ℕ) : Reading PUnit :=
  if count ≤ htMaxSize then pure ⟨⟩ else fail "DuckDB collection exceeds PHP's array size limit"

end Scalars

section Variants

def variantItem (child : Option Node → Slot → Reading PUnit) (depth : ℕ)
    (member : Option (List Byte) × Node) : Reading PUnit := do
  take (.variant depth)
  child (some member.2) (.item depth)
  drop (.variant depth)
  match member.1 with
  | some key => do
    take (.bytes false depth)
    newArray (.entry depth)
    insertString (.entry depth) (ascii "key") key
    drop (.bytes false depth)
    insert (.entry depth) (ascii "value") (.item depth)
    append (.payload depth) (.entry depth)
  | none => append (.payload depth) (.item depth)

def variantContainer (child : Option Node → Slot → Reading PUnit) (depth : ℕ) (type : List Byte)
    (members : List (Option (List Byte) × Node)) (o : Slot) : Reading PUnit := do
  valueCount members.length
  tag o type
  newArray (.payload depth)
  Exits.each (variantItem child depth) members
  insert o (ascii "value") (.payload depth)

/-- `pdo_duckdb_variant_native_impl`; no node is the VARIANT of an SQL NULL. -/
def variantImpl (B : Bridge) (child : Option Node → Slot → Reading PUnit) (depth : ℕ)
    (node : Option Node) (o : Slot) : Reading PUnit := do
  bridge
  match node with
  | none => setZval o .null
  | some .null => do
    tag o (ascii "NULL")
    setZval (.item depth) .null
    insert o (ascii "value") (.item depth)
  | some (.scalar v) => do
    take (.scalar depth)
    take (.value depth)
    take (.type depth)
    take (.bytes false depth)
    tag o (B.scalarDeclaration v)
    valueScalar B depth v (.item depth)
    insert o (ascii "value") (.item depth)
  | some (.array items) =>
    variantContainer child depth (ascii "ARRAY") (items.map fun node ↦ (none, node)) o
  | some (.object members) =>
    variantContainer child depth (ascii "OBJECT") (members.map fun m ↦ (some m.1, m.2)) o

/-- `pdo_duckdb_variant_native`, by the levels that are left below the limit. -/
def variantBelow (B : Bridge) : ℕ → ℕ → Option Node → Slot → Reading PUnit
  | 0, _, _, _ => fail depthMessage
  | levels + 1, depth, node, o => withFrame depth do
    atFrame depth
    variantImpl B (variantBelow B levels (depth + 1)) depth node o

/-- `pdo_duckdb_variant_native`. -/
def variantNative (B : Bridge) (depth : ℕ) (node : Option Node) (o : Slot) : Reading PUnit :=
  variantBelow B (valueDepth - depth) depth node o

end Variants

section Values

def readValidity (path : List ℕ) (vec : Vector) (row : ℕ) : Reading Bool :=
  match vec.validity with
  | none => pure true
  | some l => readRow l path row

/-- `duckdb_vector_get_column_type`. -/
def takeType (depth : ℕ) : Reading PUnit := fun s ↦
  match take (.type depth) s with
  | (.error (.failed _), s) => (.error (.failed "DuckDB value has no logical type"), s)
  | r => r

def Datum.bytes : Datum → List Byte
  | .scalar (.varchar s) | .scalar (.blob s) | .scalar (.geometry s) => s
  | _ => []

def nativeJson (B : Bridge) (depth : ℕ) (text : List Byte) (o : Slot) : Reading PUnit := do
  tag o (ascii "JSON")
  let rest ← jsonNode B.decode (depth + 1) text (.item depth)
  if space rest ≠ [] then fail "DuckDB JSON has trailing data"
  else insert o (ascii "value") (.item depth)

def nativeScalar (B : Bridge) (depth : ℕ) (path : List ℕ) (row : ℕ) (data : List Datum) (o : Slot) :
    Reading PUnit := do
  let d ← readRow data path row
  take (.value depth)
  take (.scalar depth)
  match d with
  | .scalar v => valueScalar B depth v o
  | .variant _ => fail "DuckDB scalar type is not supported by this pdo_duckdb build"

def nativeLeaf (B : Bridge) (depth : ℕ) (path : List ℕ) (type : LeafType) (data : List Datum)
    (row : ℕ) (o : Slot) : Reading PUnit :=
  match type with
  | .sqlNull => setZval o .null
  | .variant => do
    let d ← readRow data path row
    take (.variant depth)
    match d with
    | .variant node => variantNative B (depth + 1) node o
    | .scalar _ => fail "Expected VARIANT value"
  | .varchar typeAlias => do
    take (.bytes false depth)
    if typeAlias = ascii "JSON" then do
      let d ← readRow data path row
      nativeJson B depth d.bytes o
    else do
      drop (.bytes false depth)
      nativeScalar B depth path row data o
  | .geometry => do
    let d ← readRow data path row
    valueGeometry d.bytes o
  | _ => nativeScalar B depth path row data o

/-- The call for a row of a child: its path, its vector, the row, the rows that
the vector has, and where the zval goes. -/
abbrev ChildCall := List ℕ → Vector → ℕ → ℕ → Slot → Reading PUnit

def nativeElements (call : ChildCall) (depth : ℕ) (path : List ℕ) (child : Vector)
    (offset count childCount : ℕ) (o : Slot) : Reading PUnit := do
  valueCount count
  newArray o
  Exits.each (fun i ↦ do
    let row ← checked (offset + i)
    call (path ++ [0]) child row childCount (.item depth)
    append o (.item depth)) (List.range count)

def nativeEntries (call : ChildCall) (depth : ℕ) (path : List ℕ) (key value : Vector)
    (offset count childCount : ℕ) (o : Slot) : Reading PUnit := do
  valueCount count
  newArray o
  Exits.each (fun i ↦ do
    let row ← checked (offset + i)
    call (path ++ [0]) key row childCount (.key depth)
    call (path ++ [1]) value row childCount (.item depth)
    newArray (.entry depth)
    insert (.entry depth) (ascii "key") (.key depth)
    insert (.entry depth) (ascii "value") (.item depth)
    append o (.entry depth)) (List.range count)

def listRange (entry : ListEntry) (size : UInt64) (f : ℕ → ℕ → ℕ → Reading PUnit) : Reading PUnit :=
  if size.toNat < entry.offset.toNat ∨ size.toNat - entry.offset.toNat < entry.length.toNat then
    fail "DuckDB list range is out of bounds"
  else f entry.offset.toNat entry.length.toNat size.toNat

def nativeField (call : ChildCall) (depth : ℕ) (path : List ℕ) (tuple : Bool) (row rowCount : ℕ)
    (o : Slot) (name : List Byte) (i : ℕ) (child : Vector) : Reading PUnit := do
  call (path ++ [i]) child row rowCount (.item depth)
  if tuple then append o (.item depth)
  else do
    take (.bytes false depth)
    insert o name (.item depth)
    drop (.bytes false depth)

/-- The branches of `pdo_duckdb_value_native_impl` by the type of the vector. -/
def nativeBranch (B : Bridge) (call : ChildCall) (depth : ℕ) (path : List ℕ) (row rowCount : ℕ)
    (o : Slot) : Vector → Reading PUnit
  | .leaf type _ data => nativeLeaf B depth path type data row o
  | .list _ entries size child => do
    let entry ← readRow entries path row
    listRange entry size fun offset count childCount ↦
      nativeElements call depth path child offset count childCount o
  | .map _ entries size key value => do
    let entry ← readRow entries path row
    listRange entry size fun offset count childCount ↦
      nativeEntries call depth path key value offset count childCount o
  | .array _ size child =>
    if size.toNat ≠ 0 ∧ 0xffffffffffffffff / size.toNat < rowCount then
      fail "DuckDB array size overflows"
    else do
      let offset ← checked (row * size.toNat)
      let childCount ← checked (rowCount * size.toNat)
      nativeElements call depth path child offset size.toNat childCount o
  | .struct _ tuple names child => do
    valueCount names.length
    bridge
    newArray o
    Exits.each (fun i ↦ nativeField call depth path tuple row rowCount o (names.get i) i (child i))
      (List.finRange names.length)
  | .union _ tags names member => do
    let tag ← readRow tags (path ++ [0]) row
    if h : tag.toNat < names.length then do
      take (.bytes false depth)
      newArray o
      insertString o (ascii "tag") (names.get ⟨tag.toNat, h⟩)
      call (path ++ [tag.toNat + 1]) (member ⟨tag.toNat, h⟩) row rowCount (.item depth)
      insert o (ascii "value") (.item depth)
    else fail "DuckDB union tag is out of bounds"

/-- `pdo_duckdb_value_native_impl`. -/
def nativeImpl (B : Bridge) (call : ChildCall) (depth : ℕ) (path : List ℕ) (vec : Vector)
    (row rowCount : ℕ) (o : Slot) : Reading PUnit :=
  if rowCount ≤ row then fail "DuckDB value row is out of bounds"
  else do
    let valid ← readValidity path vec row
    if valid then do
      takeType depth
      nativeBranch B call depth path row rowCount o vec
    else setZval o .null

/-- `pdo_duckdb_value_native_at`, by the levels that are left below the limit. -/
def nativeBelow (B : Bridge) : ℕ → ℕ → ChildCall
  | 0, _, _, _, _, _, _ => fail depthMessage
  | levels + 1, depth, path, vec, row, rowCount, o => withFrame depth do
    atFrame depth
    nativeImpl B (nativeBelow B levels (depth + 1)) depth path vec row rowCount o

end Values

section Columns

def tagMessage : String := "DuckDB tagged value has an invalid representation"

def Built.find (b : Built) (name : List Byte) : Option Built :=
  match b with
  | .array _ entries => (entries.find? fun e ↦ e.1 = .name name).map Prod.snd
  | _ => none

def Built.without (b : Built) (name : List Byte) : Built :=
  match b with
  | .array h entries => .array h (entries.eraseP fun e ↦ e.1 = .name name)
  | b => b

/-- Move an entry of the payload of the first frame. -/
def moveEntry (name : List Byte) (o : Slot) : Reading PUnit := fun s ↦
  match s.1.zvals (.payload 0) with
  | some b =>
    (.ok ⟨⟩, { s.1 with zvals := Function.update (Function.update s.1.zvals (.payload 0)
      (some (b.without name))) o (b.find name) }, s.2)
  | none => (.ok ⟨⟩, s)

def isTagged (b : Built) : Bool :=
  match b.find (ascii "type"), b.find (ascii "value") with
  | some (.string _ _), some _ => true
  | _, _ => false

def wrapObject : Reading PUnit := do
  newZval .out (.object · [])
  insert .out (ascii "type") (.key 0)
  insert .out (ascii "value") (.item 0)

def wrapEntries : Reading PUnit := do
  moveEntry (ascii "type") (.key 0)
  moveEntry (ascii "value") (.item 0)
  wrapObject

def wrapPayload : Reading PUnit := fun s ↦
  if (s.1.zvals (.payload 0)).any isTagged then wrapEntries s else fail tagMessage s

def wrapTagged : Reading PUnit := do
  moveZval .out (.payload 0)
  wrapPayload

def wrapDeclared (B : Bridge) (vec : Vector) : Reading PUnit := do
  moveZval .out (.payload 0)
  take (.bytes false 0)
  setString (.key 0) (B.declaration vec)
  moveZval (.payload 0) (.item 0)
  wrapObject

/-- `pdo_duckdb_value_wrap_column` on a value that is not NULL. -/
def wrapValue (B : Bridge) (vec : Vector) : Reading PUnit := do
  takeType 0
  match vec with
  | .leaf .variant _ _ => wrapTagged
  | .leaf (.varchar typeAlias) _ _ => do
    take (.bytes false 0)
    if typeAlias = ascii "JSON" then wrapTagged else pure ⟨⟩
  | .leaf _ _ _ => pure ⟨⟩
  | _ => wrapDeclared B vec

/-- `pdo_duckdb_value_wrap_column`. -/
def wrapColumn (B : Bridge) (vec : Vector) : Reading PUnit := fun s ↦
  match s.1.zvals .out with
  | some .null => (.ok ⟨⟩, s)
  | _ => wrapValue B vec s

/-- `pdo_duckdb_value_context_clear`. -/
def clearContext (s : Slots × Surroundings) : Slots × Surroundings :=
  (List.range valueDepth).foldl (fun s depth ↦ clearFrame depth s) s

/-- Give back what a failure has left in `out`. -/
def dropOut (s : Slots × Surroundings) : Slots × Surroundings :=
  ({ s.1 with zvals := Function.update s.1.zvals .out none },
    { s.2 with zvals := s.2.zvals.releaseAll (s.1.heldAt .out) })

def endConversion (r : Except Halt Unit × (Slots × Surroundings)) :
    Except Halt Unit × (Slots × Surroundings) :=
  match r with
  | (.ok _, s) => (.ok ⟨⟩, clearContext s)
  | (.error e, s) => (.error e, dropOut (clearContext s))

/-- The native branch of `pdo_duckdb_value_convert`, with what it leaves in `out`. -/
def valueConvert (B : Bridge) (column : Bool) (vec : Vector) (row rowCount : ℕ) (c : Surroundings) :
    Except Halt Unit × (Slots × Surroundings) :=
  if c.memory c.calls = .granted then
    endConversion ((do
      nativeBelow B valueDepth 0 [] vec row rowCount .out
      if column then wrapColumn B vec else pure ⟨⟩ : Reading PUnit) (Slots.empty, c.called))
  else (.error (.failed "Unable to allocate DuckDB value conversion state"), Slots.empty, c.called)

end Columns

end PdoDuckdb.Structures
