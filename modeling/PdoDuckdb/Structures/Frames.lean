import PdoDuckdb.Structures.Vectors
import PdoDuckdb.Value.Context

namespace PdoDuckdb.Structures

open Library Value
open Cells (Memory)

/-- Where a zval is: the `out` of the conversion, or a zval of the frame of a depth. -/
inductive Slot
  | out
  | item (depth : ℕ)
  | key (depth : ℕ)
  | entry (depth : ℕ)
  | payload (depth : ℕ)
deriving DecidableEq, Repr

/-- Where a frame has what it gets from the engine and the bridge. -/
inductive HandleSlot
  | type (depth : ℕ)
  | scalar (depth : ℕ)
  | value (depth : ℕ)
  | variant (depth : ℕ)
  | bytes (second : Bool) (depth : ℕ)
deriving DecidableEq, Repr

abbrev Handle := ℕ × Unit

/-- A zval. What is allocated for a string, an array or an object has a handle. -/
inductive Built
  | null
  | bool (b : Bool)
  | long (n : ℤ)
  | double (bits : UInt64)
  | string (h : Handle) (s : List Byte)
  | array (h : Handle) (entries : List (Key × Built))
  | object (h : Handle) (properties : List (Key × Built))

mutual

/-- Everything allocated for a zval, which `zval_ptr_dtor` gives back. -/
def Built.handles : Built → List Handle
  | .null | .bool _ | .long _ | .double _ => []
  | .string h _ => [h]
  | .array h entries => h :: entryHandles entries
  | .object h properties => h :: entryHandles properties

def entryHandles : List (Key × Built) → List Handle
  | [] => []
  | (_, b) :: entries => b.handles ++ entryHandles entries

end

mutual

def Built.zval : Built → Zval
  | .null => .null
  | .bool b => .bool b
  | .long n => .long n
  | .double bits => .double bits
  | .string _ s => .string s
  | .array _ entries => .array (entryZvals entries)
  | .object _ properties => .object (entryZvals properties)

def entryZvals : List (Key × Built) → List (Key × Zval)
  | [] => []
  | (k, b) :: entries => (k, b.zval) :: entryZvals entries

end

/-- How a conversion fails. The last four are what the code must not do: take a
frame outside the array of frames or a row outside a vector, wrap a sum or a
product of `idx_t`, and go round a loop without end. -/
inductive Halt
  | failed (message : String)
  | exhausted
  | bailout
  | outOfFrames
  | outOfRows
  | wrapped
  | unending
deriving DecidableEq, Repr

def Halt.isFault : Halt → Bool
  | .outOfFrames | .outOfRows | .wrapped | .unending => true
  | _ => false

/-- The conversion state and its `out`. -/
structure Slots where
  zvals : Slot → Option Built
  handles : HandleSlot → Option Handle

/-- What is around a conversion. The bridge answers a call with a message when
it fails. -/
structure Surroundings where
  zvals : Custody Unit
  handles : Custody Unit
  memory : ℕ → Memory
  bridge : ℕ → Option String
  calls : ℕ
  accesses : List (List ℕ × ℕ)

abbrev Reading := Exits Halt (Slots × Surroundings)

def Slots.empty : Slots := ⟨fun _ ↦ none, fun _ ↦ none⟩

def zvalSlots (depth : ℕ) : List Slot := [.item depth, .key depth, .entry depth, .payload depth]

def handleSlots (depth : ℕ) : List HandleSlot :=
  [.type depth, .scalar depth, .value depth, .variant depth, .bytes false depth, .bytes true depth]

def Surroundings.called (c : Surroundings) : Surroundings := { c with calls := c.calls + 1 }

/-- A request for memory. Once memory is exhausted nothing more is stored, and
every function returns at its next look at that. -/
def request : Reading PUnit := fun s ↦
  match s.2.memory s.2.calls with
  | .granted => (.ok ⟨⟩, s.1, s.2.called)
  | .exhausted => (.error .exhausted, s.1, s.2.called)
  | .bailout => (.error .bailout, s.1, s.2.called)

def bridge : Reading PUnit := fun s ↦
  match s.2.bridge s.2.calls with
  | none => (.ok ⟨⟩, s.1, s.2.called)
  | some message => (.error (.failed message), s.1, s.2.called)

/-- `pdo_duckdb_value_fail`. -/
def fail {α : Type} (message : String) : Reading α := Exits.exit (.failed message)

def atFrame (depth : ℕ) : Reading PUnit := fun s ↦
  if depth < valueDepth then (.ok ⟨⟩, s) else (.error .outOfFrames, s)

def setZval (o : Slot) (b : Built) : Reading PUnit :=
  Exits.step fun s ↦ (⟨⟩, { s.1 with zvals := Function.update s.1.zvals o (some b) }, s.2)

def newZval (o : Slot) (make : Handle → Built) : Reading PUnit := do
  request
  Exits.step fun s ↦
    (⟨⟩, { s.1 with zvals := Function.update s.1.zvals o (some (make (s.2.zvals.create ()).1)) },
      { s.2 with zvals := (s.2.zvals.create ()).2 })

/-- `pdo_duckdb_value_set_string`. -/
def setString (o : Slot) (s : List Byte) : Reading PUnit := newZval o (.string · s)

/-- `array_init_size`. -/
def newArray (o : Slot) : Reading PUnit := newZval o (.array · [])

/-- The entries after `zend_symtable_update`. -/
def put : List (Key × Built) → Key → Built → List (Key × Built)
  | [], k, b => [(k, b)]
  | e :: entries, k, b => if e.1 = k then (e.1, b) :: entries else e :: put entries k b

def replaced : List (Key × Built) → Key → List Handle
  | [], _ => []
  | e :: entries, k => if e.1 = k then e.2.handles else replaced entries k

def Built.stored (c : Built) (k : Key) (b : Built) : Built :=
  match c with
  | .array h entries => .array h (put entries k b)
  | .object h properties => .object h (put properties k b)
  | c => c

def Built.replaced (c : Built) (k : Key) : List Handle :=
  match c with
  | .array _ entries => Structures.replaced entries k
  | .object _ properties => Structures.replaced properties k
  | _ => []

def store (a : Slot) (name : List Byte) (b : Built) (s : Slots × Surroundings) :
    Slots × Surroundings :=
  match s.1.zvals a with
  | some c =>
    ({ s.1 with zvals := Function.update s.1.zvals a (some (c.stored (.ofName name) b)) },
      { s.2 with zvals := s.2.zvals.releaseAll (c.replaced (.ofName name)) })
  | none => s

def moved (v : Slot) (s : Slots × Surroundings) : Slots × Surroundings :=
  ({ s.1 with zvals := Function.update s.1.zvals v none }, s.2)

def makeString : Reading Handle := do
  request
  Exits.step fun s ↦ ((s.2.zvals.create ()).1, s.1, { s.2 with zvals := (s.2.zvals.create ()).2 })

def release (h : Handle) (s : Slots × Surroundings) : Slots × Surroundings :=
  (s.1, { s.2 with zvals := s.2.zvals.release h })

/-- `pdo_duckdb_value_hash_insert`: a key, which is given back however it ends, and room in the
table. -/
def hashInsert (update : Slots × Surroundings → Slots × Surroundings) : Reading PUnit := do
  let key ← makeString
  Exits.guarded request (release key)
  Exits.step fun s ↦ (⟨⟩, release key (update s))

/-- `pdo_duckdb_value_insert`. -/
def insert (a : Slot) (name : List Byte) (v : Slot) : Reading PUnit :=
  hashInsert fun s ↦
    match s.1.zvals v with
    | some b => store a name b (moved v s)
    | none => s

/-- `pdo_duckdb_value_append`, to an array that is a list. -/
def append (a v : Slot) : Reading PUnit := do
  request
  Exits.step fun s ↦
    match s.1.zvals v, s.1.zvals a with
    | some b, some (.array h entries) =>
      let appended : Built := .array h (entries ++ [(.index entries.length, b)])
      (⟨⟩, { s.1 with zvals := Function.update (Function.update s.1.zvals v none) a (some appended) },
        s.2)
    | _, _ => (⟨⟩, s)

/-- `pdo_duckdb_value_insert_string`. The string is given back if there is no key or no room. -/
def insertString (a : Slot) (name s : List Byte) : Reading PUnit := do
  let value ← makeString
  Exits.guarded (hashInsert (store a name (.string value s))) (release value)

/-- `pdo_duckdb_value_tag`. -/
def tag (o : Slot) (type : List Byte) : Reading PUnit := do
  newArray o
  insertString o (ascii "type") type

def take (h : HandleSlot) : Reading PUnit := do
  bridge
  Exits.step fun s ↦
    (⟨⟩, { s.1 with handles := Function.update s.1.handles h (some (s.2.handles.create ()).1) },
      { s.2 with handles := (s.2.handles.create ()).2 })

def drop (h : HandleSlot) : Reading PUnit :=
  Exits.step fun s ↦
    (⟨⟩, { s.1 with handles := Function.update s.1.handles h none },
      { s.2 with handles := s.2.handles.releaseAll (s.1.handles h).toList })

/-- `ZVAL_COPY_VALUE` and `ZVAL_UNDEF`. -/
def moveZval (v o : Slot) : Reading PUnit :=
  Exits.step fun s ↦ (⟨⟩,
    { s.1 with zvals := Function.update (Function.update s.1.zvals v none) o (s.1.zvals v) }, s.2)

def Slots.heldAt (s : Slots) (o : Slot) : List Handle := ((s.zvals o).map Built.handles).getD []

/-- `pdo_duckdb_value_frame_clear`. -/
def clearFrame (depth : ℕ) (s : Slots × Surroundings) : Slots × Surroundings :=
  ({ zvals := fun o ↦ if o ∈ zvalSlots depth then none else s.1.zvals o
     handles := fun h ↦ if h ∈ handleSlots depth then none else s.1.handles h },
    { s.2 with
      zvals := s.2.zvals.releaseAll ((zvalSlots depth).flatMap s.1.heldAt)
      handles := s.2.handles.releaseAll ((handleSlots depth).flatMap fun h ↦ (s.1.handles h).toList) })

/-- A call with a frame of its own, which is cleared when the call returns; a
bailout does not return. -/
def withFrame {α : Type} (depth : ℕ) (m : Reading α) : Reading α := fun s ↦
  match m s with
  | (.ok a, s) => (.ok a, clearFrame depth s)
  | (.error .bailout, s) => (.error .bailout, s)
  | (.error e, s) => (.error e, clearFrame depth s)

def readRow {α : Type} (l : List α) (path : List ℕ) (row : ℕ) : Reading α := fun s ↦
  match l[row]? with
  | some a => (.ok a, s.1, { s.2 with accesses := (path, row) :: s.2.accesses })
  | none => (.error .outOfRows, s)

/-- A sum or a product of `idx_t`. -/
def checked (n : ℕ) : Reading ℕ := fun s ↦
  if n < 0x10000000000000000 then (.ok n, s) else (.error .wrapped, s)

end PdoDuckdb.Structures
