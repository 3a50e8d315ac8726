import PdoDuckdb.Cells.VariantInput

namespace PdoDuckdb.Cells

open Library Value

/-- `pdo_duckdb_cell_input`, with the slots that are filled. -/
structure CellInput where
  keys : Option (List Handle)
  values : Option (List Handle)

def CellInput.zero : CellInput := ⟨none, none⟩

def CellInput.held (input : CellInput) : List Handle := input.keys.getD [] ++ input.values.getD []

/-- `pdo_duckdb_cell_input_free`. -/
def CellInput.free (input : CellInput) (w : World) : World := w.destroyAll input.held

/-- A part of `pdo_duckdb_build_value_impl` for an array. -/
abbrev CellBuilding := Exits Stop (CellInput × World)

def modifyInput (g : CellInput → CellInput) : CellBuilding PUnit :=
  Exits.step fun s ↦ (⟨⟩, g s.1, s.2)

def openKeys : CellBuilding PUnit := do
  Exits.within allocate
  modifyInput fun input ↦ { input with keys := some [] }

def openValues : CellBuilding PUnit := do
  Exits.within allocate
  modifyInput fun input ↦ { input with values := some [] }

def pushKey (h : Handle) : CellBuilding PUnit :=
  modifyInput fun input ↦ { input with keys := input.keys.map (· ++ [h]) }

def pushValue (h : Handle) : CellBuilding PUnit :=
  modifyInput fun input ↦ { input with values := input.values.map (· ++ [h]) }

def createNested (engine : Engine) (t : Desc) (make : List Native → List Native → Native)
    (message : String) : CellBuilding Handle := fun s ↦
  (Exits.within (do
    useValues s.1.held
    if engine.createsNested t (s.1.held.map Prod.snd) then
      create (make ((s.1.keys.getD []).map Prod.snd) ((s.1.values.getD []).map Prod.snd))
    else refuse .valueError message) : CellBuilding Handle) s

def buildElements (child : Zval → Desc → Exits Stop World Handle) (t : Desc) (table : Table) :
    CellBuilding PUnit :=
  Exits.each (fun e ↦ do
    let h ← Exits.within (child e.2 t)
    pushValue h) table.entries

def buildList (child : Zval → Desc → Exits Stop World Handle) (engine : Engine) (argpos : ℕ)
    (t childDesc : Desc) (want : Option ℕ) (table : Table) : CellBuilding Handle :=
  if table.isList then do
    openValues
    if want.any (· ≠ table.numElements) then
      Exits.within (refuse .valueError (appendRow
        s!"argument #{argpos} expects {want.getD 0} fixed-array element(s), got {table.numElements}"))
    else do
      buildElements child childDesc table
      createNested engine t (fun _ values ↦ if want.isSome then .array values else .list values)
        (appendRow s!"argument #{argpos} could not be built as a nested value")
  else Exits.within (refuse .valueError (appendRow s!"argument #{argpos} expects a list-shaped array"))

def fieldKey (tuple : Bool) (name : List Byte) (i : ℕ) : Key :=
  if tuple then .index i else .ofName name

/-- One turn of the loop over the fields. The name is printed as a C string. -/
def buildField (child : Zval → Desc → Exits Stop World Handle) (argpos : ℕ) (tuple : Bool)
    (table : Table) (name : List Byte) (i : ℕ) (t : Desc) : CellBuilding PUnit :=
  match table.find (fieldKey tuple name i) with
  | none =>
    let printed := String.ofList ((name.takeWhile (· ≠ 0)).map fun c ↦ Char.ofNat c.toNat)
    Exits.within (refuse .valueError (appendRow
      s!"argument #{argpos} is missing struct field \"{printed}\""))
  | some field => do
    let h ← Exits.within (child field t)
    pushValue h

def buildStruct (child : Zval → Desc → Exits Stop World Handle) (engine : Engine) (argpos : ℕ)
    (t : Desc) (tuple : Bool) (names : List (List Byte)) (desc : Fin names.length → Desc)
    (table : Table) : CellBuilding Handle :=
  if tuple ∧ ¬ table.isList then
    Exits.within (refuse .valueError (appendRow
      s!"argument #{argpos} expects a list-shaped array for a tuple"))
  else if table.numElements ≠ names.length then
    let want := names.length
    Exits.within (refuse .valueError (appendRow
      s!"argument #{argpos} expects exactly {want} struct field(s), got {table.numElements}"))
  else do
    openValues
    Exits.each (fun i ↦ buildField child argpos tuple table (names.get i) i (desc i))
      (List.finRange names.length)
    createNested engine t (fun _ values ↦ .struct values)
      (appendRow s!"argument #{argpos} could not be built as a struct")

def keySlot : Key → Zval
  | .index i => .long (Int64.ofInt i)
  | .name s => .string s

def buildMap (child : Zval → Desc → Exits Stop World Handle) (engine : Engine) (argpos : ℕ)
    (t keyDesc valueDesc : Desc) (table : Table) : CellBuilding Handle := do
  openKeys
  openValues
  Exits.each (fun e ↦ do
    let k ← Exits.within (child (keySlot e.1) keyDesc)
    pushKey k
    let v ← Exits.within (child e.2 valueDesc)
    pushValue v) table.entries
  createNested engine t (fun keys values ↦ .map (keys.zip values))
    (appendRow s!"argument #{argpos} could not be built as a map")

/-- `pdo_duckdb_build_value_impl` on an array. -/
def buildArray (child : Zval → Desc → Exits Stop World Handle) (engine : Engine) (argpos : ℕ)
    (table : Table) (t : Desc) : CellBuilding Handle :=
  match t with
  | .list childDesc => buildList child engine argpos t childDesc none table
  | .array childDesc size => buildList child engine argpos t childDesc (some size) table
  | .struct tuple names _ desc => buildStruct child engine argpos t tuple names desc table
  | .map key value => buildMap child engine argpos t key value table
  | .leaf _ =>
    Exits.within (refuse .typeError (appendRow
      s!"argument #{argpos} is an array but the target column is not a nested type"))

/-- `zend_zval_value_name`. -/
def Zval.valueName : Zval → String
  | .null => "null"
  | .bool true => "true"
  | .bool false => "false"
  | .long _ => "int"
  | .double _ => "float"
  | .string _ => "string"
  | .array _ => "array"
  | .object className _ => className
  | .resource => "resource"
  | .reference _ => "mixed"

def leafMessage (argpos : ℕ) (z : Zval) (type : LeafType) : String :=
  match z with
  | .string _ =>
    if type = .blob then appendRow s!"argument #{argpos} is of unsupported type {z.valueName}"
    else appendRow s!"argument #{argpos} contains a string that is not valid UTF-8"
  | _ => appendRow s!"argument #{argpos} is of unsupported type {z.valueName}"

/-- `pdo_duckdb_build_value_impl` on anything else. -/
def buildPlain (engine : Engine) (argpos : ℕ) (z : Zval) (t : Desc) : Exits Stop World Handle :=
  match z, t with
  | .null, _ => create .null
  | z, .leaf type => (makeLeaf engine z type argpos).build .typeError (leafMessage argpos z type)
  | _, _ =>
    refuse .typeError (appendRow s!"argument #{argpos} expects an array for a nested column")

/-- `pdo_duckdb_build_value`, by the levels that are left. -/
def buildValueBelow (engine : Engine) (H : Heap) (argpos : ℕ) :
    ℕ → ℕ → Zval → Desc → Exits Stop World Handle
  | 0, _, _, _ => refuse .pdoException (appendRow "maximum nesting depth (128) exceeded")
  | levels + 1, depth, z, t =>
    match H.deref z, t with
    | .array _, .leaf .variant | .object _ _, .leaf .variant => buildVariant engine H z argpos depth
    | .array table, t => do
      allocate
      Exits.enclosed CellInput.zero CellInput.free
        (buildArray (buildValueBelow engine H argpos levels (depth + 1)) engine argpos (H.table table) t)
    | z, t => buildPlain engine argpos z t

/-- `pdo_duckdb_build_value`. -/
def buildValue (engine : Engine) (H : Heap) (argpos depth : ℕ) (z : Zval) (t : Desc) :
    Exits Stop World Handle :=
  buildValueBelow engine H argpos (appenderMaxDepth + 1 - depth) depth z t

end PdoDuckdb.Cells
