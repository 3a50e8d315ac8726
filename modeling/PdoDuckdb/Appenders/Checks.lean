import PdoDuckdb.Cells.Shapes
import PdoDuckdb.Library.Binary64

namespace PdoDuckdb.Appenders.Rows

open Library Library.Exits Library.Binary64 Cells

/-- `DUCKDB_TYPE_DECIMAL`. -/
def decimalId : ℕ := 19

/-- `DUCKDB_TYPE_BIT`. -/
def bitId : ℕ := 29

/-- What `duckdb_decimal_width` and `duckdb_decimal_scale` say of a DECIMAL. -/
structure DecimalType where
  width : ℕ
  scale : ℕ
  width_pos : 0 < width
  width_le : width ≤ 38
  scale_le : scale ≤ width

/-- A column of an appender: its type, whether a cast probe was prepared for it, and the digits
that it has where it is a DECIMAL. -/
structure Column where
  type : ColumnType
  probe : Bool
  digits : DecimalType

/-- What the checks have from outside: the values of the engine, `%.17G`, and `pow` at 10. -/
structure Platform where
  engine : Engine
  printDouble : UInt64 → String
  pow : ℕ → ℚ

/-- The doubles of `pdo_duckdb_appender_num_bounds` for the integer types. -/
def bounds : IntegerType → ℚ × ℚ
  | .tinyint => (-127, 126)
  | .smallint => (-32767, 32766)
  | .integer => (-2147483647, 2147483646)
  | .bigint => (-9200000000000000000, 9200000000000000000)
  | .hugeint => (-169999999999999998061923293023115935744, 169999999999999998061923293023115935744)
  | .utinyint => (0, 254)
  | .usmallint => (0, 65534)
  | .uinteger => (0, 4294967294)
  | .ubigint => (0, 18000000000000000000)
  | .uhugeint => (0, 339999999999999996123846586046231871488)

/-- `margin` of `pdo_duckdb_appender_num_bounds`. -/
def decimalMargin (limit : ℚ) : ℚ :=
  let part := nearest (limit * nearest (1 / 10 ^ 6))
  if 1 < part then part else 1

/-- The `DUCKDB_TYPE_DECIMAL` case of `pdo_duckdb_appender_num_bounds`, in its doubles. -/
def decimalBound (p : Platform) (d : DecimalType) : ℚ :=
  let limit := p.pow d.width
  nearest (nearest (limit - decimalMargin limit) / p.pow d.scale)

/-- `pdo_duckdb_appender_num_bounds`. -/
def Column.numBounds (p : Platform) (c : Column) : Option (ℚ × ℚ) :=
  match c.type with
  | .leaf (.integer type) => some (bounds type)
  | .leaf (.other id) =>
    if id = decimalId then some (-decimalBound p c.digits, decimalBound p c.digits) else none
  | _ => none

/-- `PDO_DUCKDB_CHK_*`; `bounds` with its row of `col_num_bounds`. -/
inductive Check
  | none
  | probe
  | bounds (low high : ℚ)
  | intRange
  | float
  | notString
  | nested

/-- The kinds of a scalar that have a check of their own; `false` and `true` have one. -/
inductive Kind
  | bool | long | double | string
deriving DecidableEq, Repr

/-- `PDO_DUCKDB_APPENDER_COL_NESTED`. -/
def Column.isNested (c : Column) : Bool :=
  match c.type with
  | .list _ | .array _ _ | .struct _ _ _ _ | .map _ _ => true
  | _ => false

/-- `PDO_DUCKDB_APPENDER_COL_BLOB`. -/
def Column.isBlob (c : Column) : Bool :=
  match c.type with
  | .leaf .blob => true
  | _ => false

/-- `other` of `pdo_duckdb_appender_plan_checks`. -/
def Column.otherCheck (c : Column) : Check := if c.probe then .probe else .none

/-- `bounded ? PDO_DUCKDB_CHK_BOUNDS : other`. -/
def Column.numberCheck (p : Platform) (c : Column) : Check :=
  if c.probe then (c.numBounds p).elim c.otherCheck fun b ↦ .bounds b.1 b.2 else c.otherCheck

/-- The `switch` of `pdo_duckdb_appender_plan_checks`, for the kinds that are no strings. -/
def Column.scalarCheck (p : Platform) (c : Column) (kind : Kind) : Check :=
  match c.type with
  | .leaf .boolean | .leaf .double => .none
  | .leaf .float => if kind = .double then .float else .none
  | .leaf (.integer .bigint) | .leaf (.integer .hugeint) =>
    if kind = .long then .none else c.numberCheck p
  | .leaf (.integer _) => if kind = .long then .intRange else c.numberCheck p
  | .leaf (.other id) => if id = bitId then .none else c.numberCheck p
  | _ => c.numberCheck p

/-- `pdo_duckdb_appender_plan_checks`. -/
def Column.planChecks (p : Platform) (c : Column) (kind : Kind) : Check :=
  if c.isNested then .nested
  else if c.isBlob then if kind = .string then .none else .notString
  else if kind = .string then c.otherCheck
  else c.scalarCheck p kind

/-- How the probe of a column ends: it casts the value, it does not, or the sandbox does not
let it run. -/
inductive Probing
  | accepted
  | refused (detail : String)
  | denied (message : String)

def kindOf : Zval → Option Kind
  | .bool _ => some .bool
  | .long _ => some .long
  | .double _ => some .double
  | .string _ => some .string
  | _ => none

def number : Zval → Number
  | .double bits => decode bits
  | .long l => .finite (nearest l.toInt)
  | .bool true => .finite 1
  | _ => .finite 0

/-- `PDO_DUCKDB_FLOAT_ROUNDS_TO_INF`. -/
def floatRoundsToInf : ℚ := 2 ^ 128 - 2 ^ 103

def exceedsFloat (bits : UInt64) : Bool :=
  match decode bits with
  | .finite v => floatRoundsToInf ≤ |v|
  | _ => false

/-- `pdo_duckdb_appender_probe_row_value`. The detail of a refusal is copied first. -/
def probeRowValue : Probing → Exits Stop World PUnit
  | .accepted => pure ⟨⟩
  | .refused detail => do
    allocate
    refuse .pdoException ("Failed to append value: " ++ detail)
  | .denied message => refuse .pdoException ("Pdo\\Duckdb\\Appender: " ++ message)

/-- `pdo_duckdb_validate_integer_range`, with its exception. -/
def checkIntRange (argpos : ℕ) (c : Column) (z : Zval) : Exits Stop World PUnit :=
  match z, c.type with
  | .long l, .leaf type =>
    if validateIntegerRange l type then pure ⟨⟩
    else refuse .valueError (appendRow
      s!"argument #{argpos} integer {l} is out of range for the target column type")
  | _, _ => pure ⟨⟩

def checkFloat (p : Platform) (argpos : ℕ) (z : Zval) : Exits Stop World PUnit :=
  match z with
  | .double bits =>
    if exceedsFloat bits then
      let printed := p.printDouble bits
      refuse .pdoException
        s!"Failed to append value: argument #{argpos} value {printed} is out of range for FLOAT"
    else pure ⟨⟩
  | _ => pure ⟨⟩

def runCheck (p : Platform) (argpos : ℕ) (c : Column) (z : Zval) (probing : Probing) :
    Check → Exits Stop World PUnit
  | .none => pure ⟨⟩
  | .intRange => checkIntRange argpos c z
  | .float => checkFloat p argpos z
  | .bounds low high =>
    if (number z).between low high then pure ⟨⟩ else probeRowValue probing
  | .probe => probeRowValue probing
  | .notString => refuse .typeError (appendRow s!"argument #{argpos} expects a string for a BLOB column")
  | .nested =>
    refuse .typeError (appendRow s!"argument #{argpos} expects an array for a nested column")

def scalarCell (c : Column) : Zval → Option Native
  | .null => some .null
  | .bool b => some (.scalar (.bool b))
  | .long l => some (.scalar (.integer .bigint l.toInt))
  | .double bits => some (.scalar (.double bits))
  | .string s => some (.scalar (if c.isBlob then .blob s else .varchar s))
  | _ => none

section Checks

variable {p : Platform} {argpos : ℕ} {c : Column} {z : Zval} {probing : Probing} {check : Check}
  {M : ℕ → Memory} {hs : List Handle} {ss : List StringHandle}

def Check.Passed (c : Column) (z : Zval) (probing : Probing) : Check → Prop
  | .none => True
  | .probe => probing = .accepted
  | .bounds low high => (number z).between low high ∨ probing = .accepted
  | .intRange => ∀ l type, z = .long l → c.type = .leaf type → validateIntegerRange l type
  | .float => ∀ bits, z = .double bits → exceedsFloat bits = false
  | .notString | .nested => False

theorem probeRowValue_meets : Meets (·.Owes M hs ss) (probeRowValue probing)
    (fun _ w ↦ probing = .accepted ∧ w.Owes M hs ss) (Lost M True hs ss) := by
  cases probing with
  | accepted => exact .pure fun w hw ↦ ⟨rfl, hw⟩
  | refused detail => exact allocate_meets.bind fun _ ↦ refuse_meets trivial
  | denied message => exact refuse_meets trivial

theorem checkIntRange_meets : Meets (·.Owes M hs ss) (checkIntRange argpos c z)
    (fun _ w ↦ Check.intRange.Passed c z probing ∧ w.Owes M hs ss) (Lost M True hs ss) := by
  unfold checkIntRange
  split
  · rename_i l type htype
    split_ifs with hrange
    · refine .pure fun w hw ↦ ⟨fun l' type' hl htype' ↦ ?_, hw⟩
      cases hl
      cases htype.symm.trans htype'
      exact hrange
    · exact refuse_meets trivial
  · rename_i hother
    exact .pure fun w hw ↦ ⟨fun l type hl htype ↦ (hother l type hl htype).elim, hw⟩

theorem checkFloat_meets : Meets (·.Owes M hs ss) (checkFloat p argpos z)
    (fun _ w ↦ Check.float.Passed c z probing ∧ w.Owes M hs ss) (Lost M True hs ss) := by
  unfold checkFloat
  split
  · rename_i bits
    split_ifs with hexceeds
    · exact refuse_meets trivial
    · refine .pure fun w hw ↦ ⟨fun bits' hbits ↦ ?_, hw⟩
      cases hbits
      exact Bool.eq_false_iff.mpr hexceeds
  · rename_i hother
    exact .pure fun w hw ↦ ⟨fun bits hbits ↦ (hother bits hbits).elim, hw⟩

/-- A check lets a value pass or throws, and leaves what there is. -/
theorem runCheck_meets : Meets (·.Owes M hs ss) (runCheck p argpos c z probing check)
    (fun _ w ↦ check.Passed c z probing ∧ w.Owes M hs ss) (Lost M True hs ss) := by
  cases check with
  | none => exact .pure fun w hw ↦ ⟨trivial, hw⟩
  | probe => exact probeRowValue_meets
  | bounds low high =>
    rw [runCheck]
    split_ifs with hbetween
    · exact .pure fun w hw ↦ ⟨.inl hbetween, hw⟩
    · exact probeRowValue_meets.post fun _ w hw ↦ ⟨.inr hw.1, hw.2⟩
  | intRange => exact checkIntRange_meets
  | float => exact checkFloat_meets
  | notString => exact refuse_meets trivial
  | nested => exact refuse_meets trivial

end Checks

/-- The number has the digits of a DECIMAL: scaled and rounded it is short of `10 ^ width`, with
what the doubles of DuckDB lose on the way. -/
def DecimalType.Holds (d : DecimalType) (x : ℚ) : Prop :=
  (|x| * 10 ^ d.scale + 1 / 2) * (1 + 1 / 2 ^ 50) < 10 ^ d.width

section Bounds

variable {p : Platform} {d : DecimalType} {limit v x : ℚ}

end Bounds

section Casts

variable {p : Platform} {casts : Column → Native → Prop} {c : Column} {z : Zval} {v : Native}
  {kind : Kind} {probing : Probing} {check : Check}

end Casts

end PdoDuckdb.Appenders.Rows
