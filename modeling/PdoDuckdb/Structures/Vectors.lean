import PdoDuckdb.Cells.Leaves

namespace PdoDuckdb.Structures

open Cells

/-- `duckdb_list_entry`. -/
structure ListEntry where
  offset : UInt64
  length : UInt64
deriving DecidableEq, Repr

inductive Datum
  | scalar (v : Scalar)
  | variant (node : Option Node)

/-- A `duckdb_vector` with its type. What it holds for its rows is in lists of
the size that the vector really has. -/
inductive Vector
  | leaf (type : LeafType) (validity : Option (List Bool)) (data : List Datum)
  | list (validity : Option (List Bool)) (entries : List ListEntry) (size : UInt64) (child : Vector)
  | map (validity : Option (List Bool)) (entries : List ListEntry) (size : UInt64) (key value : Vector)
  | array (validity : Option (List Bool)) (size : UInt64) (child : Vector)
  | struct (validity : Option (List Bool)) (tuple : Bool) (names : List (List Byte))
      (child : Fin names.length → Vector)
  | union (validity : Option (List Bool)) (tags : List UInt8) (names : List (List Byte))
      (member : Fin names.length → Vector)

namespace Vector

/-- `duckdb_vector_get_validity`. -/
def validity : Vector → Option (List Bool)
  | .leaf _ validity _ => validity
  | .list validity _ _ _ => validity
  | .map validity _ _ _ _ => validity
  | .array validity _ _ => validity
  | .struct validity _ _ _ => validity
  | .union validity _ _ _ => validity

/-- The vector has `n` rows, and a child as many as the vector says. -/
def Sized : Vector → ℕ → Prop
  | .leaf _ validity data => fun n ↦ (∀ l ∈ validity, l.length = n) ∧ data.length = n
  | .list validity entries size child => fun n ↦
    (∀ l ∈ validity, l.length = n) ∧ entries.length = n ∧ child.Sized size.toNat
  | .map validity entries size key value => fun n ↦
    (∀ l ∈ validity, l.length = n) ∧ entries.length = n ∧ key.Sized size.toNat ∧ value.Sized size.toNat
  | .array validity size child => fun n ↦
    (∀ l ∈ validity, l.length = n) ∧ child.Sized (n * size.toNat)
  | .struct validity _ _ child => fun n ↦ (∀ l ∈ validity, l.length = n) ∧ ∀ i, (child i).Sized n
  | .union validity tags _ member => fun n ↦
    (∀ l ∈ validity, l.length = n) ∧ tags.length = n ∧ ∀ i, (member i).Sized n

theorem Sized.validity {vec : Vector} {n : ℕ} (h : vec.Sized n) : ∀ l ∈ vec.validity, l.length = n := by
  cases vec <;> exact h.1

def ValidAt (vec : Vector) (row : ℕ) : Prop := ∀ l ∈ vec.validity, l[row]? = some true

/-- Where a value leads: to the rows of the children of what is not NULL. A
vector is named by the way to it, the index of a child at each step. -/
inductive Reached (root : Vector) (start : ℕ) : List ℕ → Vector → ℕ → Prop
  | root : Reached root start [] root start
  | list {path : List ℕ} {validity : Option (List Bool)} {entries : List ListEntry} {size : UInt64}
      {child : Vector} {row i : ℕ} {e : ListEntry} :
      Reached root start path (.list validity entries size child) row →
      (list validity entries size child).ValidAt row → entries[row]? = some e → i < e.length.toNat →
      Reached root start (path ++ [0]) child (e.offset.toNat + i)
  | key {path : List ℕ} {validity : Option (List Bool)} {entries : List ListEntry} {size : UInt64}
      {key value : Vector} {row i : ℕ} {e : ListEntry} :
      Reached root start path (.map validity entries size key value) row →
      (map validity entries size key value).ValidAt row → entries[row]? = some e → i < e.length.toNat →
      Reached root start (path ++ [0]) key (e.offset.toNat + i)
  | value {path : List ℕ} {validity : Option (List Bool)} {entries : List ListEntry} {size : UInt64}
      {key value : Vector} {row i : ℕ} {e : ListEntry} :
      Reached root start path (.map validity entries size key value) row →
      (map validity entries size key value).ValidAt row → entries[row]? = some e → i < e.length.toNat →
      Reached root start (path ++ [1]) value (e.offset.toNat + i)
  | array {path : List ℕ} {validity : Option (List Bool)} {size : UInt64} {child : Vector} {row i : ℕ} :
      Reached root start path (.array validity size child) row →
      (array validity size child).ValidAt row → i < size.toNat →
      Reached root start (path ++ [0]) child (row * size.toNat + i)
  | struct {path : List ℕ} {validity : Option (List Bool)} {tuple : Bool} {names : List (List Byte)}
      {child : Fin names.length → Vector} {row : ℕ} (i : Fin names.length) :
      Reached root start path (.struct validity tuple names child) row →
      (struct validity tuple names child).ValidAt row → Reached root start (path ++ [i.val]) (child i) row
  | union {path : List ℕ} {validity : Option (List Bool)} {tags : List UInt8} {names : List (List Byte)}
      {member : Fin names.length → Vector} {row : ℕ} (i : Fin names.length) :
      Reached root start path (.union validity tags names member) row →
      (union validity tags names member).ValidAt row → (tags[row]?).map UInt8.toNat = some i.val →
      Reached root start (path ++ [i.val + 1]) (member i) row

/-- The rows that the value of a row is made of; the tags of a union are its first child. -/
inductive Touched (root : Vector) (start : ℕ) : List ℕ → ℕ → Prop
  | vector {path : List ℕ} {vec : Vector} {row : ℕ} :
      Reached root start path vec row → Touched root start path row
  | tags {path : List ℕ} {validity : Option (List Bool)} {tags : List UInt8} {names : List (List Byte)}
      {member : Fin names.length → Vector} {row : ℕ} :
      Reached root start path (.union validity tags names member) row →
      (union validity tags names member).ValidAt row → Touched root start (path ++ [0]) row

end Vector

end PdoDuckdb.Structures
