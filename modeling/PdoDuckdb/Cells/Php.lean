import PdoDuckdb.Value.Context
import Mathlib.Data.List.Nodup

namespace PdoDuckdb.Cells

open Value

/-- `HT_MAX_SIZE`. -/
def htMaxSize : ℕ := 0x40000000

/-- A PHP value in a slot of a script. An array or an object is the address of
its hash table. -/
inductive Zval
  | null
  | bool (b : Bool)
  | long (n : Int64)
  | double (bits : UInt64)
  | string (s : List Byte)
  | array (table : ℕ)
  | object (className : String) (table : ℕ)
  | resource
  | reference (cell : ℕ)
deriving DecidableEq, Repr

/-- A key as a string, which `zend_long_to_str` makes of a number. -/
def keyBytes : Key → List Byte
  | .index i => signedDecimal i
  | .name s => s

/-- A hash table. Its keys differ as strings: an array has no name that is a
number, and a property table has names only. -/
structure Table where
  entries : List (Key × Zval)
  distinct : (entries.map fun e ↦ keyBytes e.1).Nodup
  size : entries.length ≤ htMaxSize

structure Heap where
  table : ℕ → Table
  cell : ℕ → Zval

def Table.empty : Table := ⟨[], List.nodup_nil, Nat.zero_le _⟩

/-- `zend_hash_num_elements`. -/
def Table.numElements (t : Table) : ℕ := t.entries.length

/-- `zend_array_is_list`. -/
def Table.isList (t : Table) : Bool :=
  t.entries.map Prod.fst = (List.range t.entries.length).map fun i : ℕ ↦ Key.index i

/-- `zend_hash_find` and `zend_hash_index_find`. -/
def Table.find (t : Table) (k : Key) : Option Zval := t.entries.lookup k

/-- `ZVAL_DEREF`. -/
def Heap.deref (H : Heap) : Zval → Zval
  | .reference c => H.cell c
  | z => z

theorem Table.keys_nodup (t : Table) : (t.entries.map Prod.fst).Nodup := by
  have h : ((t.entries.map Prod.fst).map keyBytes).Nodup := by
    rw [List.map_map]
    exact t.distinct
  exact List.Nodup.of_map keyBytes h

end PdoDuckdb.Cells
