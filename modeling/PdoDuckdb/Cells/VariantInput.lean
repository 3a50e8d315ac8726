import PdoDuckdb.Cells.Leaves
import Mathlib.Data.List.Sort
import Mathlib.Logic.Function.Basic

namespace PdoDuckdb.Cells

open Library Value

/-- `PDO_DUCKDB_APPENDER_MAX_DEPTH`. -/
def appenderMaxDepth : ℕ := 128

def uint32Max : ℕ := 0xffffffff

/-- `input_value` of the bridge: a nested value is no child of a VARIANT. -/
def Native.node : Native → Option Node
  | .null => some .null
  | .scalar v => some (.scalar v)
  | .variant n => some n
  | _ => none

/-- What `make_variant` has against a key, after the ones it has seen. -/
def keysError : List (List Byte) → List (List Byte) → Option String
  | _, [] => none
  | seen, k :: keys =>
    if uint32Max < k.length then some "VARIANT key exceeds its storage limit"
    else if seen.contains k then some "Duplicate VARIANT object key"
    else keysError (k :: seen) keys

/-- The members in the order of a `std::map`. -/
def sortMembers (members : List (List Byte × Node)) : List (List Byte × Node) :=
  members.insertionSort fun m m' ↦ m.1 ≤ m'.1

/-- `make_variant`. -/
def makeVariant (object : Bool) (keys : List (List Byte)) (children : List Native) :
    Except String Node :=
  if uint32Max < children.length then .error "VARIANT child count exceeds its storage limit"
  else
    match if object then keysError [] keys else none with
    | some message => .error message
    | none =>
      match children.mapM Native.node with
      | none => .error "Nested VARIANT input must use explicit object or array construction"
      | some nodes => .ok (if object then .object (sortMembers (keys.zip nodes)) else .array nodes)

/-- `pdo_duckdb_variant_input_frame`. Of the arrays it has the slots that are
filled; the bytes of the keys belong to the table or to `numericKeys`. -/
structure VariantFrame where
  active : Option ℕ
  value : Option Handle
  children : Option (List Handle)
  keys : Option (List (List Byte))
  numericKeys : Option (List StringHandle)
  count : ℕ

abbrev VariantFrames := ℕ → VariantFrame

def VariantFrame.zero : VariantFrame := ⟨none, none, none, none, none, 0⟩

def VariantFrame.held (f : VariantFrame) : List Handle := f.value.toList ++ f.children.getD []

def VariantFrame.strings (f : VariantFrame) : List StringHandle := f.numericKeys.getD []

/-- `pdo_duckdb_variant_input_clear`; the frame is zero after it. -/
def VariantFrame.clear (f : VariantFrame) (w : World) : World :=
  (w.destroyAll f.held).releaseStrings f.strings

def VariantFrame.pushChild (f : VariantFrame) (h : Handle) : VariantFrame :=
  { f with children := f.children.map (· ++ [h]) }

def VariantFrame.pushKey (f : VariantFrame) (key : List Byte) : VariantFrame :=
  { f with keys := f.keys.map (· ++ [key]) }

def VariantFrame.pushNumericKey (f : VariantFrame) (s : StringHandle) : VariantFrame :=
  { f with numericKeys := f.numericKeys.map (· ++ [s]) }

/-- A part of `pdo_duckdb_variant_input_build`: the frames are
`pdo_duckdb_variant_input`. -/
abbrev Building := Exits Stop (VariantFrames × World)

def getFrame (depth : ℕ) : Building VariantFrame := fun s ↦
  if depth ≤ appenderMaxDepth then (.ok (s.1 depth), s) else (.error .outOfFrames, s)

def modifyFrame (depth : ℕ) (g : VariantFrame → VariantFrame) : Building PUnit := fun s ↦
  if depth ≤ appenderMaxDepth then (.ok ⟨⟩, Function.update s.1 depth (g (s.1 depth)), s.2)
  else (.error .outOfFrames, s)

def clearFrame (depth : ℕ) : Building PUnit := fun s ↦
  if depth ≤ appenderMaxDepth then
    (.ok ⟨⟩, Function.update s.1 depth .zero, (s.1 depth).clear s.2)
  else (.error .outOfFrames, s)

def isActive (frames : VariantFrames) (depth table : ℕ) : Bool :=
  (List.range depth).any fun ancestor ↦ (frames ancestor).active = some table

def makeString (s : List Byte) : Exits Stop World StringHandle := do
  allocate
  Exits.step fun w ↦ ((w.strings.create s).1, { w with strings := (w.strings.create s).2 })

def openFrame (depth table count : ℕ) (object : Bool) : Building PUnit := do
  modifyFrame depth fun f ↦ { f with active := some table, count := count }
  Exits.within allocate
  modifyFrame depth fun f ↦ { f with children := some [] }
  if object then
    Exits.within allocate
    modifyFrame depth fun f ↦ { f with keys := some [] }
    Exits.within allocate
    modifyFrame depth fun f ↦ { f with numericKeys := some [] }

/-- The key of a member, as a string of its own if it is a number. -/
def storeKey (depth : ℕ) : Key → Building PUnit
  | .name s => modifyFrame depth (·.pushKey s)
  | .index i => do
    let s ← Exits.within (makeString (signedDecimal i))
    modifyFrame depth (·.pushNumericKey s)
    modifyFrame depth (·.pushKey s.2)

def storeEntry (child : Zval → Building Handle) (depth : ℕ) (object : Bool) (e : Key × Zval) :
    Building PUnit := do
  (if object then storeKey depth e.1 else pure ⟨⟩)
  let h ← child e.2
  modifyFrame depth (·.pushChild h)

/-- `pdd_bridge_variant_object` or `pdd_bridge_variant_array` on a frame. -/
def bridgeVariant (object : Bool) (f : VariantFrame) : Exits Stop World Handle := do
  let children := f.children.getD []
  useValues children
  match makeVariant object (f.keys.getD []) (children.map Prod.snd) with
  | .error message => refuse .pdoException ("Pdo\\Duckdb\\Appender: " ++ message)
  | .ok node => create (.variant node)

def buildContainer (child : Zval → Building Handle) (H : Heap) (argpos depth : ℕ) (object : Bool)
    (table : ℕ) : Building Handle := fun s ↦
  if isActive s.1 depth table then
    Exits.within (refuse .valueError (appendRow
      s!"argument #{argpos} contains a recursive VARIANT value")) s
  else
    (do
      openFrame depth table (H.table table).numElements object
      Exits.each (storeEntry child depth object) (H.table table).entries
      let f ← getFrame depth
      let result ← Exits.within (bridgeVariant object f)
      clearFrame depth
      return result : Building Handle) s

/-- `pdo_duckdb_variant_input_build` below the limit; `child` is the call for a child. -/
def buildNode (child : Zval → Building Handle) (engine : Engine) (H : Heap) (argpos depth : ℕ)
    (z : Zval) : Building Handle :=
  match H.deref z with
  | .array table => buildContainer child H argpos depth (!(H.table table).isList) table
  | .object className table =>
    if className = "stdClass" then do
      -- the properties may have to be built
      Exits.within allocate
      buildContainer child H argpos depth true table
    else
      Exits.within (refuse .typeError (appendRow
        s!"argument #{argpos} expects plain stdClass objects for VARIANT objects"))
  | z =>
    Exits.within ((makeLeaf engine z .variant argpos).build .typeError (appendRow
      s!"argument #{argpos} contains an unsupported VARIANT value or invalid UTF-8 string"))

/-- `pdo_duckdb_variant_input_build`, by the levels that are left. -/
def buildBelow (engine : Engine) (H : Heap) (argpos : ℕ) : ℕ → ℕ → Zval → Building Handle
  | 0, _, _ =>
    Exits.within (refuse .valueError (appendRow "maximum nesting depth (128) exceeded"))
  | levels + 1, depth, z => do
    let _ ← getFrame depth
    buildNode (buildBelow engine H argpos levels (depth + 1)) engine H argpos depth z

/-- `pdo_duckdb_variant_input_build`. -/
def variantInputBuild (engine : Engine) (H : Heap) (argpos depth : ℕ) (z : Zval) : Building Handle :=
  buildBelow engine H argpos (appenderMaxDepth + 1 - depth) depth z

def clearFrames (frames : VariantFrames) (w : World) : World :=
  (List.range (appenderMaxDepth + 1)).foldl (fun w i ↦ (frames i).clear w) w

/-- `pdo_duckdb_build_variant`. -/
def buildVariant (engine : Engine) (H : Heap) (z : Zval) (argpos depth : ℕ) :
    Exits Stop World Handle := do
  allocate
  Exits.enclosed (fun _ ↦ VariantFrame.zero) clearFrames (variantInputBuild engine H argpos depth z)

end PdoDuckdb.Cells
