import PdoDuckdb.Numerals
import Mathlib.Logic.Function.Basic

namespace PdoDuckdb.Value

inductive Key
  | index (i : ℤ)
  | name (s : List Byte)
deriving DecidableEq, Repr

/-- `ZEND_LONG_MAX`. -/
def longMax : ℤ := 0x7fffffffffffffff

/-- `ZEND_LONG_MIN`. -/
def longMin : ℤ := -longMax - 1

def digitsValue (s : List Byte) : ℕ := s.foldl (fun n c ↦ 10 * n + (c.toNat - 48)) 0

def signedValue : List Byte → ℤ
  | [] => 0
  | c :: s => if c = Byte.minus then -digitsValue s else digitsValue (c :: s)

/-- `ZEND_HANDLE_NUMERIC_STR`: the key of a symbol table that a name is. -/
def Key.ofName (s : List Byte) : Key :=
  if signedDecimal (signedValue s) = s ∧ longMin ≤ signedValue s ∧ signedValue s ≤ longMax then
    .index (signedValue s)
  else .name s

theorem Key.ofName_injective : Function.Injective Key.ofName := by
  intro s t h
  unfold ofName at h
  split_ifs at h with hs ht ht
  · rw [← hs.1, ← ht.1, Key.index.inj h]
  · exact Key.name.inj h

/-- A PHP value. A double is kept as its bits. -/
inductive Zval
  | null
  | bool (b : Bool)
  | long (n : ℤ)
  | double (bits : UInt64)
  | string (s : List Byte)
  | array (entries : List (Key × Zval))
  | object (properties : List (Key × Zval))

namespace Zval

/-- `zend_symtable_update`. -/
def update : List (Key × Zval) → List Byte → Zval → List (Key × Zval)
  | [], name, v => [(.ofName name, v)]
  | e :: entries, name, v =>
    if e.1 = .ofName name then (e.1, v) :: entries else e :: update entries name v

/-- `pdo_duckdb_value_insert`. -/
def insert (a : Zval) (name : List Byte) (v : Zval) : Zval :=
  match a with
  | .array entries => .array (update entries name v)
  | a => a

/-- `pdo_duckdb_value_append`, to an array that is a list. -/
def append (a v : Zval) : Zval :=
  match a with
  | .array entries => .array (entries ++ [(.index entries.length, v)])
  | a => a

/-- `pdo_duckdb_value_tag`. -/
def tag (type : List Byte) : Zval := insert (.array []) (ascii "type") (.string type)

/-- `zend_hash_num_elements`. -/
def numElements : Zval → ℕ
  | .array entries => entries.length
  | _ => 0

def list (vs : List Zval) : Zval := .array (vs.mapIdx fun i v ↦ (.index i, v))

/-- An array with a type and a value, as `insert` after `tag` leaves it. -/
def tagged (type : List Byte) (v : Zval) : Zval :=
  .array [(.name (ascii "type"), .string type), (.name (ascii "value"), v)]

def entry (k v : Zval) : Zval :=
  .array [(.name (ascii "key"), k), (.name (ascii "value"), v)]

theorem ofName_type : Key.ofName (ascii "type") = .name (ascii "type") := by decide

theorem ofName_key : Key.ofName (ascii "key") = .name (ascii "key") := by decide

theorem ofName_value : Key.ofName (ascii "value") = .name (ascii "value") := by decide

theorem insert_tag (type : List Byte) (v : Zval) :
    (tag type).insert (ascii "value") v = tagged type v := by
  have hne : ascii "type" ≠ ascii "value" := by decide
  simp [tag, insert, update, tagged, hne, ofName_type, ofName_value]

theorem insert_entry (k v : Zval) :
    ((Zval.array []).insert (ascii "key") k).insert (ascii "value") v = entry k v := by
  have hne : ascii "key" ≠ ascii "value" := by decide
  simp [insert, update, entry, hne, ofName_key, ofName_value]

theorem append_list (vs : List Zval) (v : Zval) : (list vs).append v = list (vs ++ [v]) := by
  simp [append, list]

@[simp] theorem numElements_list (vs : List Zval) : (list vs).numElements = vs.length := by
  simp [numElements, list]

theorem map_snd_mapIdx (vs : List Zval) :
    (vs.mapIdx fun i v ↦ (Key.index i, v)).map Prod.snd = vs := by
  apply List.ext_getElem?
  simp [Function.comp_def]

theorem list_injective : Function.Injective list := by
  intro vs ws h
  simp only [list, array.injEq] at h
  rw [← map_snd_mapIdx vs, h, map_snd_mapIdx]

theorem tagged_injective {type type' : List Byte} {v v' : Zval}
    (h : tagged type v = tagged type' v') : type = type' ∧ v = v' := by
  simpa [tagged] using h

theorem entry_injective {k k' v v' : Zval} (h : entry k v = entry k' v') : k = k' ∧ v = v' := by
  simpa [entry] using h

theorem list_ne_tagged (vs : List Zval) (type : List Byte) (v : Zval) :
    list vs ≠ tagged type v := by
  intro h
  cases vs <;> simp [list, tagged] at h

end Zval

/-- The zvals of a `pdo_duckdb_value_frame`; `none` is `IS_UNDEF`. -/
structure Frame where
  item : Option Zval
  key : Option Zval
  entry : Option Zval
  payload : Option Zval

/-- A frame after `pdo_duckdb_value_frame_clear`. -/
def Frame.clear : Frame := ⟨none, none, none, none⟩

abbrev Frames := ℕ → Frame

def Frame.held (vs : List Zval) : Frame := ⟨none, none, none, some (.list vs)⟩

/-- `PDO_DUCKDB_VALUE_DEPTH`. -/
def valueDepth : ℕ := 128

def depthMessage : String := "DuckDB value exceeds the maximum nesting depth (128)"

/-- The frames from `depth` on hold nothing. -/
def ClearFrom (frames : Frames) (depth : ℕ) : Prop := ∀ i ≥ depth, frames i = .clear

theorem ClearFrom.succ {frames : Frames} {depth : ℕ} (h : ClearFrom frames depth) :
    ClearFrom frames (depth + 1) :=
  fun i hi ↦ h i (Nat.le_of_succ_le hi)

theorem ClearFrom.update {frames : Frames} {depth : ℕ} (h : ClearFrom frames (depth + 1))
    (f : Frame) : ClearFrom (Function.update frames depth f) (depth + 1) := by
  intro i hi
  rw [Function.update_of_ne (Nat.ne_of_gt hi)]
  exact h i hi

/-- Clearing the frame of a call gives back the frames it was made with. -/
theorem ClearFrom.update_clear {frames : Frames} {depth : ℕ} (h : ClearFrom frames depth)
    (f : Frame) : Function.update (Function.update frames depth f) depth .clear = frames := by
  rw [Function.update_idem, ← h depth (Nat.le_refl depth), Function.update_eq_self]

end PdoDuckdb.Value
