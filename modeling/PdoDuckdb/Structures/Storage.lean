import PdoDuckdb.Structures.Safety
import PdoDuckdb.Cells.Shapes

namespace PdoDuckdb.Structures

open Library Value
open Cells (ColumnType LeafType Native)

section Fetches

/-- What `pdo_duckdb_value_native_at` gives at a depth. -/
def fetchAt (B : Bridge) (depth : ℕ) (vec : Vector) (row rowCount : ℕ) : Option Zval :=
  match nativeBelow B (valueDepth - depth) depth [] vec row rowCount .out (Slots.empty, quiet) with
  | (.ok _, s) => (s.1.zvals .out).map Built.zval
  | (.error _, _) => none

/-- What `pdo_duckdb_value_native_column` gives. -/
def fetchColumn (B : Bridge) (vec : Vector) (row rowCount : ℕ) : Option Zval :=
  ((valueConvert B true vec row rowCount quiet).2.1.zvals .out).map Built.zval

variable {B : Bridge} {depth row rowCount : ℕ} {vec : Vector}

theorem fetchAt_eq (hplain : vec.Plain) (hsized : vec.Sized rowCount)
    (hcount : rowCount < 0x10000000000000000) :
    fetchAt B depth vec row rowCount = nativeZval B (valueDepth - depth) vec row rowCount := by
  unfold fetchAt
  by_cases hd : depth ≤ valueDepth
  · have hstart := holds_start (c := quiet) Custody.owes_empty Custody.owes_empty rfl (Vector.Touched vec row)
    have hcalls : CallsWalk ⟨quiet.memory, quiet.bridge, [], [], Vector.Touched vec row⟩ vec row depth
        (nativeZval B (valueDepth - depth)) (nativeBelow B (valueDepth - depth) depth) :=
      nativeBelow_walks (fun _ _ h ↦ h) _ depth (Nat.add_sub_cancel' hd)
    have hwalk := hcalls [] vec row rowCount hsized hcount .root _ _ .out (ready_empty depth) _ hstart
    generalize nativeBelow B (valueDepth - depth) depth [] vec row rowCount .out (Slots.empty, quiet) = r
      at hwalk ⊢
    match r, hwalk with
    | (.ok _, s), ⟨v, hv, hs⟩ =>
      obtain ⟨b, hb, rfl⟩ := hs.built (Function.update_self ..)
      exact (congrArg (Option.map Built.zval) hb).trans (hv hplain).symm
    | (.error e, s), hlost => exact (hlost.granted ⟨fun _ ↦ rfl, fun _ ↦ rfl⟩ hplain).symm
  · have hzero : valueDepth - depth = 0 := by omega
    rw [hzero]
    rfl

theorem fetchColumn_eq (hplain : vec.Plain) (hsized : vec.Sized rowCount)
    (hcount : rowCount < 0x10000000000000000) :
    fetchColumn B vec row rowCount = convertedZval B true vec row rowCount :=
  valueConvert_zval hsized hcount Custody.owes_empty Custody.owes_empty rfl (fun _ ↦ rfl) (fun _ ↦ rfl)
    hplain B true row

end Fetches

section Stores

def NullAt (vec : Vector) (row : ℕ) : Prop := ∃ l ∈ vec.validity, l[row]? = some false

/-- The engine has stored a value in a row of a vector of a type unchanged. -/
def Stored : ColumnType → Vector → ℕ → Native → Prop
  | .leaf type => fun vec row v ↦ ∃ validity data, vec = .leaf type validity data ∧
      match v with
      | .null => NullAt vec row
      | .scalar x => vec.ValidAt row ∧
          data[row]? = some (if type = .variant then .variant (some (.scalar x)) else .scalar x)
      | .variant node => type = .variant ∧ vec.ValidAt row ∧ data[row]? = some (.variant (some node))
      | _ => False
  | .list child => fun vec row v ↦ ∃ validity entries size childVec,
      vec = .list validity entries size childVec ∧ ((v = .null ∧ NullAt vec row) ∨
        ∃ items e, v = .list items ∧ vec.ValidAt row ∧ entries[row]? = some e ∧
          e.length.toNat = items.length ∧ e.offset.toNat + e.length.toNat ≤ size.toNat ∧
          ∀ i item, items[i]? = some item → Stored child childVec (e.offset.toNat + i) item)
  | .array child n => fun vec row v ↦ ∃ validity size childVec,
      vec = .array validity size childVec ∧ size.toNat = n ∧ ((v = .null ∧ NullAt vec row) ∨
        ∃ items, v = .array items ∧ vec.ValidAt row ∧ items.length = n ∧
          ∀ i item, items[i]? = some item → Stored child childVec (row * n + i) item)
  | .struct tuple names _ child => fun vec row v ↦ ∃ validity, ∃ fields : Fin names.length → Vector,
      vec = .struct validity tuple names fields ∧ ((v = .null ∧ NullAt vec row) ∨
        ∃ values, v = .struct values ∧ vec.ValidAt row ∧ values.length = names.length ∧
          ∀ i value, values[i.val]? = some value → Stored (child i) (fields i) row value)
  | .map key value => fun vec row v ↦ ∃ validity entries size keyVec valueVec,
      vec = .map validity entries size keyVec valueVec ∧ ((v = .null ∧ NullAt vec row) ∨
        ∃ pairs e, v = .map pairs ∧ vec.ValidAt row ∧ entries[row]? = some e ∧
          e.length.toNat = pairs.length ∧ e.offset.toNat + e.length.toNat ≤ size.toNat ∧
          ∀ i pair, pairs[i]? = some pair → Stored key keyVec (e.offset.toNat + i) pair.1 ∧
            Stored value valueVec (e.offset.toNat + i) pair.2)
  | .union _ _ => fun _ _ _ ↦ False

end Stores

section Nests

open Cells (Heap plainEngine)

/-- Arrays around 1, one inside the other, `k` of them. -/
def nestHeap (k : ℕ) : Heap where
  table i := ⟨[(.index 0, if i + 1 < k then .array (i + 1) else .long 1)], by simp, Nat.succ_pos _⟩
  cell _ := .null

variable {k n i : ℕ}

theorem nestHeap_within (hi : i < k) : (nestHeap k).Within n (.array i) ↔ k - i < n := by
  induction n generalizing i with
  | zero => exact iff_of_false id (Nat.not_lt_zero _)
  | succ n ih =>
    have hchildren : (nestHeap k).children (.array i) = [if i + 1 < k then .array (i + 1) else .long 1] := rfl
    rw [Heap.Within, hchildren, List.forall_mem_singleton]
    by_cases hnext : i + 1 < k
    · rw [if_pos hnext, ih hnext]
      omega
    · rw [if_neg hnext]
      cases n with
      | zero => exact iff_of_false id (by omega)
      | succ n => exact iff_of_true (fun y hy ↦ absurd hy List.not_mem_nil) (by omega)

theorem nestHeap_supported {y : Cells.Zval} (h : Relation.ReflTransGen (nestHeap k).Step (.array i) y) :
    (nestHeap k).Supported plainEngine y := by
  have hkinds : (∃ j, y = .array j) ∨ y = .long 1 := by
    induction h with
    | refl => exact .inl ⟨i, rfl⟩
    | tail _ hstep ih =>
      rcases ih with ⟨j, rfl⟩ | rfl
      · obtain rfl := List.mem_singleton.mp hstep
        by_cases hnext : j + 1 < k
        · exact .inl ⟨j + 1, if_pos hnext⟩
        · exact .inr (if_neg hnext)
      · cases hstep
  rcases hkinds with ⟨j, rfl⟩ | rfl
  · exact .inl rfl
  · rfl

theorem nestHeap_unfold (hi : i < k) (hn : k - i < n) :
    ((nestHeap k).unfold plainEngine n (.array i)).isSome :=
  Heap.isSome_unfold.mpr ⟨(nestHeap_within hi).mpr hn, fun _ ↦ nestHeap_supported⟩

end Nests

end PdoDuckdb.Structures
