import PdoDuckdb.Structures.Native

namespace PdoDuckdb.Structures

open Value
open Cells (Scalar Node htMaxSize)

def renderedZval (B : Bridge) (v : Scalar) : Zval :=
  match B.render v with
  | none => .null
  | some s => .string s

def scalarZval (B : Bridge) (v : Scalar) : Option Zval :=
  match v with
  | .bool b => some (.long (if b then 1 else 0))
  | .integer type n => some (if fitsLong type then .long n else renderedZval B v)
  | .float bits => some (.double (B.floatToDouble bits))
  | .double bits => some (.double bits)
  | .varchar s | .blob s => some (.string s)
  | .geometry s => if zstrMaxLength / 2 < s.length then none else some (.string (geometryText s))
  | .rendered _ _ => some (renderedZval B v)
  | .unknown _ => none

/-- A list of at most as many values as an array takes. -/
def listZval {α : Type} (l : List α) (f : α → Option Zval) : Option Zval :=
  if l.length ≤ htMaxSize then (l.mapM f).map .list else none

def memberZval (f : Node → Option Zval) (member : Option (List Byte) × Node) : Option Zval :=
  match member.1 with
  | some key => (f member.2).map (.entry (.string key))
  | none => f member.2

def nodeZval (B : Bridge) (below : Node → Option Zval) : Option Node → Option Zval
  | none => some .null
  | some .null => some (.tagged (ascii "NULL") .null)
  | some (.scalar v) => (scalarZval B v).map (.tagged (B.scalarDeclaration v))
  | some (.array items) => (listZval items below).map (.tagged (ascii "ARRAY"))
  | some (.object members) =>
    (listZval members fun m ↦ (below m.2).map (.entry (.string m.1))).map (.tagged (ascii "OBJECT"))

/-- What a VARIANT of at most so many levels is read as. -/
def variantZval (B : Bridge) : ℕ → Option Node → Option Zval
  | 0, _ => none
  | levels + 1, node => nodeZval B (fun node ↦ variantZval B levels (some node)) node

def rangeZval (entry : ListEntry) (size : UInt64) (f : ℕ → Option Zval) : Option Zval :=
  if size.toNat < entry.offset.toNat ∨ size.toNat - entry.offset.toNat < entry.length.toNat then none
  else listZval (List.range entry.length.toNat) fun i ↦ f (entry.offset.toNat + i)

def fieldsZval (tuple : Bool) (names : List (List Byte)) (vs : List Zval) : Zval :=
  if tuple then .list vs else (names.zip vs).foldl (fun a field ↦ a.insert field.1 field.2) (.array [])

def structZval (tuple : Bool) (names : List (List Byte)) (f : Fin names.length → Option Zval) :
    Option Zval :=
  if names.length ≤ htMaxSize then ((List.finRange names.length).mapM f).map (fieldsZval tuple names)
  else none

def Vector.Plain : Vector → Prop
  | .leaf type _ _ => type ≠ .varchar (ascii "JSON")
  | .list _ _ _ child => child.Plain
  | .map _ _ _ key value => key.Plain ∧ value.Plain
  | .array _ _ child => child.Plain
  | .struct _ _ _ child => ∀ i, (child i).Plain
  | .union _ _ _ member => ∀ i, (member i).Plain

/-- What a row of a vector without children is read as. JSON texts are left to
the reader of JSON. -/
def leafZval (B : Bridge) (levels : ℕ) (type : Cells.LeafType) (d : Datum) : Option Zval :=
  match type, d with
  | .sqlNull, _ => some .null
  | .variant, .variant node => variantZval B levels node
  | .variant, .scalar _ => none
  | .geometry, d =>
    if zstrMaxLength / 2 < d.bytes.length then none else some (.string (geometryText d.bytes))
  | .varchar typeAlias, d =>
    if typeAlias = ascii "JSON" then none
    else
      match d with
      | .scalar v => scalarZval B v
      | .variant _ => none
  | _, .scalar v => scalarZval B v
  | _, .variant _ => none

def branchZval (B : Bridge) (levels : ℕ) (below : Vector → ℕ → ℕ → Option Zval) (row rowCount : ℕ) :
    Vector → Option Zval
  | .leaf type _ data => (data[row]?).bind (leafZval B levels type)
  | .list _ entries size child => (entries[row]?).bind fun entry ↦
      rangeZval entry size fun i ↦ below child i size.toNat
  | .map _ entries size key value => (entries[row]?).bind fun entry ↦
      rangeZval entry size fun i ↦ (below key i size.toNat).bind fun k ↦
        (below value i size.toNat).map (.entry k)
  | .array _ size child =>
    if size.toNat ≠ 0 ∧ 0xffffffffffffffff / size.toNat < rowCount then none
    else listZval (List.range size.toNat) fun i ↦
      below child (row * size.toNat + i) (rowCount * size.toNat)
  | .struct _ tuple names child => structZval tuple names fun i ↦ below (child i) row rowCount
  | .union _ tags names member => (tags[row]?).bind fun tag ↦
      if h : tag.toNat < names.length then
        (below (member ⟨tag.toNat, h⟩) row rowCount).map
          (((Zval.array []).insert (ascii "tag") (.string (names.get ⟨tag.toNat, h⟩))).insert
            (ascii "value"))
      else none

def nativeZval (B : Bridge) : ℕ → Vector → ℕ → ℕ → Option Zval
  | 0, _, _, _ => none
  | levels + 1, vec, row, rowCount =>
    if rowCount ≤ row then none
    else if vec.validity.any fun l ↦ l[row]? = some false then some .null
    else branchZval B levels (nativeZval B levels) row rowCount vec

def findZval (v : Zval) (name : List Byte) : Option Zval :=
  match v with
  | .array entries => (entries.find? fun e ↦ e.1 = .name name).map Prod.snd
  | _ => none

def wrappedZval (type v : Zval) : Zval :=
  .object [(.name (ascii "type"), type), (.name (ascii "value"), v)]

def taggedColumn (v : Zval) : Option Zval :=
  match findZval v (ascii "type"), findZval v (ascii "value") with
  | some (.string type), some value => some (wrappedZval (.string type) value)
  | _, _ => none

def wrappedColumn (B : Bridge) (vec : Vector) (v : Zval) : Option Zval :=
  match vec with
  | .leaf .variant _ _ => taggedColumn v
  | .leaf (.varchar typeAlias) _ _ => if typeAlias = ascii "JSON" then taggedColumn v else some v
  | .leaf _ _ _ => some v
  | vec => some (wrappedZval (.string (B.declaration vec)) v)

def isNull : Zval → Bool
  | .null => true
  | _ => false

def columnZval (B : Bridge) (vec : Vector) (v : Zval) : Option Zval :=
  if isNull v then some v else wrappedColumn B vec v

end PdoDuckdb.Structures
