import PdoDuckdb.Numerals
import PdoDuckdb.Sql.Pieces

namespace PdoDuckdb.Sql

open Byte Library.Scanning

/-- `ZEND_LONG_MAX` and `ZEND_ULONG_MAX` of a 64-bit build. -/
def zendLongMax : ℕ := 0x7fffffffffffffff

def zendUlongMax : ℕ := 0xffffffffffffffff

/-- `pdo_duckdb_sql_placeholder`. -/
structure Placeholder where
  offset : ℕ
  length : ℕ
  index : ℕ
  numeric : Bool
deriving DecidableEq, Repr

/-- `pdo_duckdb_sql_param_style`. -/
inductive Style
  | none
  | positional
  | named
deriving DecidableEq, Repr

/-- `pdo_duckdb_sql_plan`. A hash table is the list of its entries in the order
they were added; the capacities are left out. -/
structure Plan where
  sql : List Byte
  legacyParser : Bool
  names : List (List Byte × ℕ) := []
  nativeNames : List (List Byte × ℕ) := []
  nativePositions : List (ℕ × ℕ) := []
  placeholders : List Placeholder := []
  nativePlaceholders : List Placeholder := []
  style : Style := .none
  parameterCount : ℕ := 0
  bindingCount : ℕ := 0
  nativeParameterCount : ℕ := 0
  nativeNextPosition : ℕ := 0
  hasDollarParameters : Bool := false
  hasNamedDollarParameters : Bool := false
  isAttach : Bool := false
deriving DecidableEq, Repr

namespace Plan

def record (plan : Plan) (offset length index : ℕ) : Plan :=
  { plan with
    placeholders := plan.placeholders ++ [⟨offset, length, index, true⟩]
    nativeNextPosition :=
      if index ≥ plan.nativeNextPosition then index + 1 else plan.nativeNextPosition }

/-- The names once `text` has the next index; only named placeholders have entries. -/
def namesWith (plan : Plan) (style : Style) (text : List Byte) : List (List Byte × ℕ) :=
  if style = .named then plan.names ++ [(text, plan.parameterCount)] else plan.names

def foundName (plan : Plan) (style : Style) (text : List Byte) : Option ℕ :=
  if style = .named then plan.names.lookup text else none

/-- `pdo_duckdb_sql_add_placeholder`. -/
def addPlaceholder (plan : Plan) (offset : ℕ) (text : List Byte) (style : Style) :
    Except String Plan :=
  if plan.style ≠ .none ∧ plan.style ≠ style then
    .error "mixed named and positional parameters"
  else
    match plan.foundName style text with
    | some index => .ok ({ plan with style }.record offset text.length index)
    | none =>
      if plan.parameterCount = zendLongMax then .error "Too many SQL parameters"
      else
        .ok ({ plan with
          style
          names := plan.namesWith style text
          parameterCount := plan.parameterCount + 1 }.record offset text.length plan.parameterCount)

def recordNative (plan : Plan) (offset length position : ℕ) (numeric : Bool) : Plan :=
  { plan with
    nativePlaceholders := plan.nativePlaceholders ++ [⟨offset, length, position, numeric⟩]
    nativeNextPosition :=
      if position ≥ plan.nativeNextPosition then position + 1 else plan.nativeNextPosition }

/-- The numeric branch of `pdo_duckdb_sql_add_native_placeholder`: the number in
the name, `none` where it does not fit. -/
def parsePosition (legacy : Bool) : ℕ → List Byte → Option ℕ
  | position, [] => some position
  | position, c :: s =>
    if c = underscore then
      if legacy then some position else parsePosition legacy position s
    else
      let digit := (c - 0x30).toNat
      if digit > 9 ∨ position > (zendUlongMax - digit) / 10 then none
      else parsePosition legacy (position * 10 + digit) s

/-- The position a numeric name stands for, and whether the legacy parser takes
it for an anonymous parameter. -/
def numericPosition (plan : Plan) (name : List Byte) : Option (ℕ × Bool) :=
  match parsePosition plan.legacyParser 0 name with
  | none => none
  | some 0 =>
    if plan.legacyParser then
      if plan.nativeNextPosition > zendLongMax then none else some (plan.nativeNextPosition, true)
    else none
  | some (position + 1) => if position > zendLongMax then none else some (position, false)

def unquoted (mark : Byte) : List Byte → List Byte
  | [] => []
  | [c] => [c]
  | c :: d :: s => if c = mark ∧ d = c then c :: unquoted mark s else c :: unquoted mark (d :: s)

def asciiLower (c : Byte) : Byte := if 0x41 ≤ c && c ≤ 0x5a then c + 0x20 else c

def nativeKey (mark : Option Byte) (name : List Byte) : List Byte :=
  (match mark with
    | some mark => unquoted mark name
    | none => name).map asciiLower

/-- A key seen for the first time; an anonymous parameter has none. -/
def addNativeName (plan : Plan) (anonymous : Bool) (key : List Byte) (position : ℕ) : Plan :=
  if anonymous then plan else { plan with nativeNames := plan.nativeNames ++ [(key, position)] }

def addNativePosition (plan : Plan) (position : ℕ) : Plan :=
  match plan.nativePositions.lookup position with
  | some _ => plan
  | none =>
    { plan with
      nativePositions := plan.nativePositions ++ [(position, plan.nativeParameterCount)]
      nativeParameterCount := plan.nativeParameterCount + 1 }

/-- `pdo_duckdb_sql_add_native_placeholder`. -/
def addNativePlaceholder (plan : Plan) (offset length : ℕ) (name : List Byte) (numeric : Bool)
    (mark : Option Byte) : Plan :=
  match if numeric then plan.numericPosition name else some (plan.nativeParameterCount, false) with
  | none => plan
  | some (position, anonymous) =>
    let key := nativeKey mark name
    match if anonymous then none else plan.nativeNames.lookup key with
    | some position => plan.recordNative offset length position numeric
    | none =>
      ((plan.addNativeName anonymous key position).addNativePosition position).recordNative
        offset length position numeric

def isAttachKeyword (text : List Byte) : Bool := text.map asciiLower == ascii "attach"

/-- The effect of one piece of the text on the plan, and on `seen_token`. -/
def addPiece (state : Plan × Bool) (piece : ℕ × Lexeme Byte Piece) : Except String (Plan × Bool) :=
  let (plan, seen) := state
  let (offset, l) := piece
  match l.kind with
  | .blank | .comment => .ok state
  | .semicolon => .ok (plan, seen)
  | .dollar _ => .ok ({ plan with hasDollarParameters := true }, true)
  | .native numeric nameStart nameLength mark =>
    let plan := { plan with
      hasDollarParameters := true
      hasNamedDollarParameters := plan.hasNamedDollarParameters || !numeric }
    .ok (plan.addNativePlaceholder offset l.text.length ((l.text.drop nameStart).take nameLength)
      numeric mark, true)
  | .identifier =>
    .ok ({ plan with isAttach := plan.isAttach || (!seen && isAttachKeyword l.text) }, true)
  | .named => do .ok (← plan.addPlaceholder offset l.text .named, true)
  | .positional => do .ok (← plan.addPlaceholder offset l.text .positional, true)
  | _ => .ok (plan, true)

/-- The positions of a plan with PDO placeholders: these first, then the numeric
native ones that are none of them. -/
def addFreePosition (positions : List (ℕ × ℕ)) (p : Placeholder) : List (ℕ × ℕ) :=
  if p.numeric ∧ positions.lookup p.index = none then positions ++ [(p.index, positions.length)]
  else positions

def mergedPositions (plan : Plan) : List (ℕ × ℕ) :=
  plan.nativePlaceholders.foldl addFreePosition
    ((List.range plan.parameterCount).map fun i ↦ (i, i))

def finish (plan : Plan) : Plan :=
  let positions := if plan.parameterCount = 0 then plan.nativePositions else plan.mergedPositions
  { plan with nativePositions := positions, bindingCount := positions.length }

/-- `pdo_duckdb_sql_plan_create`. -/
def create (v2 legacyParser : Bool) (sql : List Byte) : Except String Plan :=
  if 0 ∈ sql then .error "SQL statement contains a NUL byte"
  else do
    let state ← (positions 0 ((planner v2).scan sql)).foldlM addPiece ({ sql, legacyParser }, false)
    .ok state.1.finish

/-- `pdo_duckdb_sql_binding_slot`, `none` for `SIZE_MAX`. -/
def bindingSlot (plan : Plan) (position : ℕ) : Option ℕ :=
  if position ≥ plan.bindingCount then none else plan.nativePositions.lookup position

end Plan

/-- `pdo_duckdb_sql_binding`. -/
structure Binding where
  value : Option (List Byte) := none
  quote : Bool := false
  blob : Bool := false
deriving DecidableEq, Repr

def hexByte (c : Byte) : List Byte := [hexDigit (c.toNat / 16), hexDigit (c.toNat % 16)]

/-- `pdo_duckdb_sql_append_bytes`, which `pdo_duckdb_sql_quote_bytes` calls too. -/
def quoteBytes (data : List Byte) (blob : Bool) : List Byte :=
  if blob ∨ 0 ∈ data then
    ascii (if blob then "system.main.from_hex('" else "system.main.decode(system.main.from_hex('") ++
      data.flatMap hexByte ++ ascii (if blob then "')" else "'))")
  else quote :: (data.flatMap fun c ↦ if c = quote then [quote, quote] else [c]) ++ [quote]

/-- The order in which `pdo_duckdb_sql_render` takes the placeholders, each with
whether it is a native one. -/
def mergeLoop : ℕ → List Placeholder → List Placeholder → List (Bool × Placeholder)
  | 0, _, _ => []
  | _ + 1, [], [] => []
  | fuel + 1, p :: ps, n :: ns =>
    if n.offset < p.offset then (true, n) :: mergeLoop fuel (p :: ps) ns
    else (false, p) :: mergeLoop fuel ps (n :: ns)
  | fuel + 1, p :: ps, [] => (false, p) :: mergeLoop fuel ps []
  | fuel + 1, [], n :: ns => (true, n) :: mergeLoop fuel [] ns

def merge (ps ns : List Placeholder) : List (Bool × Placeholder) :=
  mergeLoop (ps.length + ns.length) ps ns

namespace Plan

/-- The placeholders a rendering replaces; without values the native ones stay. -/
def occurrences (plan : Plan) (withNative : Bool) : List (Bool × Placeholder) :=
  merge plan.placeholders (if withNative then plan.nativePlaceholders else [])

/-- What the output of `pdo_duckdb_sql_render` has in a placeholder's place. -/
def replacement (plan : Plan) (values : Option (List Binding)) (probe native : Bool)
    (p : Placeholder) : List Byte :=
  let slot :=
    if native then
      if plan.parameterCount ≠ 0 ∧ ¬p.numeric then none else plan.bindingSlot p.index
    else some p.index
  match values with
  | some values =>
    match slot.bind fun slot ↦ values[slot]? with
    | some ⟨some value, quote, blob⟩ =>
      [space] ++ (if quote then quoteBytes value blob else value) ++ [space]
    | _ => (plan.sql.drop p.offset).take p.length
  | none => if probe then ascii " '' " else dollar :: decimal (p.index + 1)

def renderLoop (plan : Plan) (values : Option (List Binding)) (probe : Bool) (copied : ℕ) :
    List (Bool × Placeholder) → List Byte
  | [] => plan.sql.drop copied
  | (native, p) :: ps =>
    (plan.sql.drop copied).take (p.offset - copied) ++ plan.replacement values probe native p ++
      renderLoop plan values probe (p.offset + p.length) ps

/-- `pdo_duckdb_sql_render`. -/
def render (plan : Plan) (values : Option (List Binding)) (probe : Bool) : List Byte :=
  plan.renderLoop values probe 0 (plan.occurrences values.isSome)

/-- `pdo_duckdb_sql_native`. -/
def native (plan : Plan) : List Byte := plan.render none false

/-- `pdo_duckdb_sql_parse_probe`. -/
def parseProbe (plan : Plan) : List Byte := plan.render none true

/-- `pdo_duckdb_sql_expand`. -/
def expand (plan : Plan) (values : List Binding) : Except String (List Byte) :=
  if values.length ≠ plan.bindingCount then
    .error "number of bound variables does not match number of tokens"
  else if (List.range plan.parameterCount).any fun i ↦ (values[i]?.bind (·.value)).isNone then
    .error "parameter was not defined"
  else .ok (plan.render (some values) false)

end Plan

end PdoDuckdb.Sql
