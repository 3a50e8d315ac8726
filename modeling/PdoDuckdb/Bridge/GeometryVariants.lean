import PdoDuckdb.Bridge.GeometryTypes
import PdoDuckdb.Bridge.ObjectOrder
import PdoDuckdb.Library.Families
import PdoDuckdb.Structures.Native
import Mathlib.Order.Filter.AtTopBot.Basic
import Mathlib.Order.Filter.Finite

namespace PdoDuckdb.Bridge

open Library.Loops Library.Families Filter
open Structures (geometryText upperHexDigit)

/-- A `duckdb::Value` of a type without children that is not NULL: its type, and its bytes. -/
structure ScalarValue where
  type : LogicalType
  bytes : List Byte

/-- How a conversion ends early: an exception, or the end of what a run is given. -/
inductive Stop
  | thrown (message : String)
  | outOfLevels
deriving DecidableEq, Repr

/-- The engine's builders of VARIANT values. That of 1.5 gets the children of an object one by
one and sorts them; that of 2.0 is given the tree as it is emitted. -/
structure VariantEngine where
  v2 : Bool
  toVariant : Tree ScalarValue → Target ScalarValue
  buildVariant : Tree ScalarValue → Storage ScalarValue

section Hex

/-- `std::numeric_limits<size_t>::max()`. -/
def sizeMax : ℕ := 0xffffffffffffffff

def LogicalType.isGeometry : LogicalType → Bool
  | .geometry _ _ => true
  | _ => false

def ScalarValue.isGeometry (v : ScalarValue) : Bool := v.type.isGeometry

/-- `geometry_as_hex` on a value of a type without children. -/
def scalarAsHex (v : ScalarValue) : Except Stop ScalarValue :=
  if v.type.isGeometry then
    if v.bytes.length ≤ sizeMax / 2 then .ok ⟨.varchar [] [], geometryText v.bytes⟩
    else .error (.thrown "Geometry exceeds string size limit")
  else .ok v

def hexed (v : ScalarValue) : ScalarValue :=
  if v.type.isGeometry then ⟨.varchar [] [], geometryText v.bytes⟩ else v

def upperHexValue (c : Byte) : Option ℕ :=
  if Byte.isDigit c then some (c.toNat - 0x30)
  else if 0x41 ≤ c && c ≤ 0x46 then some (c.toNat - 0x41 + 10)
  else none

/-- The bytes that a text of pairs of digits stands for; no other text stands for any. -/
def hexBytes : List Byte → Option (List Byte)
  | [] => some []
  | [_] => none
  | c :: d :: s => do
    let high ← upperHexValue c
    let low ← upperHexValue d
    some (UInt8.ofNat (16 * high + low) :: (← hexBytes s))

theorem hexBytes_geometryText (s : List Byte) : hexBytes (geometryText s) = some s := by
  induction s with
  | nil => rfl
  | cons c s ih =>
    have hdigits : ∀ c : Byte, upperHexValue (upperHexDigit (c.toNat / 16)) = some (c.toNat / 16) ∧
        upperHexValue (upperHexDigit (c.toNat % 16)) = some (c.toNat % 16) := Byte.forall_byte (by decide)
    have hbyte : ∀ c : Byte, UInt8.ofNat (16 * (c.toNat / 16) + c.toNat % 16) = c := Byte.forall_byte (by decide)
    obtain ⟨hhigh, hlow⟩ := hdigits c
    have htext : geometryText (c :: s) =
        upperHexDigit (c.toNat / 16) :: upperHexDigit (c.toNat % 16) :: geometryText s := rfl
    rw [htext, hexBytes, hhigh, hlow, ih, Option.bind_eq_bind, Option.bind_some, Option.bind_some, hbyte]
    rfl

theorem scalarAsHex_eq {v : ScalarValue} (h : v.isGeometry → v.bytes.length ≤ sizeMax / 2) :
    scalarAsHex v = .ok (hexed v) := by
  unfold scalarAsHex hexed
  split_ifs with hgeometry hle
  · rfl
  · exact absurd (h hgeometry) hle
  · rfl

theorem isGeometry_hexed (v : ScalarValue) : (hexed v).type.isGeometry = false := by
  unfold hexed
  split_ifs with h
  · rfl
  · simpa using h

theorem hexed_eq_iff (v : ScalarValue) : hexed v = v ↔ v.type.isGeometry = false := by
  unfold hexed
  split_ifs with h
  · rw [h]
    refine iff_of_false (fun heq ↦ ?_) (by simp)
    rw [← heq] at h
    cases h
  · simpa using h

end Hex

section Variants

/-- The variables of the search for a GEOMETRY; the top of the stack is first. -/
structure Search where
  pending : List ℕ
  geometry : Bool
  thrown : Option String

def searchTurn (s : Storage ScalarValue) (c : Search) : Option (List ℕ × Search) :=
  if c.geometry ∨ c.thrown.isSome then none
  else
    match c.pending with
    | [] => none
    | index :: rest =>
      match s.node index with
      | .null => some ([index], ⟨rest, false, none⟩)
      | .scalar v => some ([index], ⟨rest, v.type.isGeometry, none⟩)
      | .array _ _ | .object _ _ =>
        match s.nested index with
        | .error message => some ([index], ⟨rest, false, some message⟩)
        | .ok children => some ([index],
            ⟨((List.range children.childCount).map fun k ↦ (s.entry (children.slot k)).valuesIndex).reverse ++ rest,
              false, none⟩)

/-- `variant_tree` and `emit_node` with `geometry_hex`: the tree that the builder is given. -/
def variantTree (s : Storage ScalarValue) : ℕ → ℕ → Except Stop (Tree ScalarValue)
  | 0, _ => .error .outOfLevels
  | levels + 1, index =>
    if s.isNull then .ok .null
    else
      match s.node index with
      | .null => .ok .null
      | .scalar v => (scalarAsHex v).map .scalar
      | .array _ _ =>
        match s.nested index with
        | .error message => .error (.thrown message)
        | .ok children =>
          (collect fun k : Fin children.childCount ↦
            variantTree s levels (s.entry (children.slot k)).valuesIndex).map (.array children.childCount)
      | .object _ _ =>
        match s.nested index with
        | .error message => .error (.thrown message)
        | .ok children =>
          (collect fun k : Fin children.childCount ↦
            variantTree s levels (s.entry (children.slot k)).valuesIndex).map
              (.object children.childCount fun k ↦ s.keyAt (children.slot k))

/-- `variant_geometry_as_hex` on a value that is not NULL, within a number of turns and
levels. What is built again is of the plain type VARIANT. -/
def variantGeometryAsHex (engine : VariantEngine) (levels : ℕ) (typeAlias : List Byte) (s : Storage ScalarValue) :
    Except Stop (List Byte × Storage ScalarValue) :=
  match s.opened with
  | .error message => .error (.thrown message)
  | .ok storage =>
    match loop (searchTurn storage) levels ⟨[0], false, none⟩ with
    | none => .error .outOfLevels
    | some (_, ⟨_, _, some message⟩) => .error (.thrown message)
    | some (_, ⟨_, false, none⟩) => .ok (typeAlias, s)
    | some (_, ⟨_, true, none⟩) =>
      match variantTree storage levels 0 with
      | .error e => .error e
      | .ok tree =>
        if engine.v2 then .ok ([], engine.buildVariant tree)
        else
          match restoreObjectOrder storage (engine.toVariant tree) levels with
          | none => .error .outOfLevels
          | some (_, .error message) => .error (.thrown message)
          | some (_, .ok target) => .ok ([], target.value)

end Variants

section Searching

variable {s : Storage ScalarValue} {t : Tree ScalarValue} {i n : ℕ} {rest : List ℕ}

/-- What the search does with a stack. It takes some of it off, or finds a GEOMETRY. -/
def Searches (s : Storage ScalarValue) (found : Bool) (count : ℕ) (pending rest : List ℕ) : Prop :=
  ∃ k ≤ count, ∃ log c, Turns (searchTurn s) k ⟨pending, false, none⟩ log c ∧
    c.geometry = found ∧ c.thrown = none ∧ (found = false → c.pending = rest)

theorem Searches.trans {m count : ℕ} {found : Bool} {p q r : List ℕ} (h : Searches s false m p q)
    (h' : Searches s found count q r) : Searches s found (m + count) p r := by
  obtain ⟨k, hk, log, c, hturns, hgeometry, hthrown, hpending⟩ := h
  obtain ⟨l, hl, log', c', hturns', hc'⟩ := h'
  obtain ⟨pending, geometry, thrown⟩ := c
  obtain rfl : geometry = false := hgeometry
  obtain rfl : thrown = none := hthrown
  obtain rfl : pending = q := hpending rfl
  exact ⟨k + l, Nat.add_le_add hk hl, log ++ log', c', hturns.trans hturns', hc'⟩

theorem Searches.found_mono {m count : ℕ} {p q r : List ℕ} (h : Searches s true m p q) :
    Searches s true (m + count) p r := by
  obtain ⟨k, hk, log, c, hturns, hgeometry, hthrown, -⟩ := h
  exact ⟨k, hk.trans (Nat.le_add_right m count), log, c, hturns, hgeometry, hthrown, fun h ↦ by cases h⟩

theorem any_children (ht : t.kind = .object ∨ t.kind = .array) (p : ScalarValue → Bool) :
    t.any p = (List.finRange t.size).reverse.any fun k ↦ (t.child k).any p := by
  rw [Bool.eq_iff_iff]
  cases t with
  | null | scalar v => simp [Tree.kind] at ht
  | array size item | object size key member => simp [Tree.any, Tree.size, Tree.child]

theorem length_paths (t : Tree ScalarValue) :
    t.paths.length = ((List.finRange t.size).reverse.map fun k ↦ (t.child k).paths.length).sum + 1 := by
  rw [t.paths_eq, List.length_cons, List.length_flatMap]
  simp only [List.length_map]

theorem searches_children {n : ℕ} {tree : Fin n → Tree ScalarValue} {index : Fin n → ℕ} {p : ScalarValue → Bool}
    (h : ∀ k rest, Searches s ((tree k).any p) (tree k).paths.length (index k :: rest) rest) (ks : List (Fin n))
    (rest : List ℕ) : Searches s (ks.any fun k ↦ (tree k).any p) (ks.map fun k ↦ (tree k).paths.length).sum
      (ks.map index ++ rest) rest := by
  induction ks with
  | nil => exact ⟨0, Nat.zero_le _, [], _, .zero _, rfl, rfl, fun _ ↦ rfl⟩
  | cons k ks ih =>
    have hk := h k (ks.map index ++ rest)
    rw [List.any_cons, List.map_cons, List.sum_cons, List.map_cons, List.cons_append]
    cases hany : (tree k).any p with
    | false =>
      rw [hany] at hk
      exact hk.trans ih
    | true =>
      rw [hany] at hk
      exact hk.found_mono

/-- The search of a tree. -/
theorem searches_tree (h : s.Reads i t) (rest : List ℕ) :
    Searches s (t.any ScalarValue.isGeometry) t.paths.length (i :: rest) rest := by
  induction t using Tree.childInduction generalizing i rest with
  | h t ih =>
    obtain ⟨head, hchild⟩ := h
    have hcount : (s.nestedData i).childCount = t.size := head.childCount
    by_cases ht : t.kind = .object ∨ t.kind = .array
    · have hturn : searchTurn s ⟨i :: rest, false, none⟩ =
          some ([i], ⟨(List.finRange t.size).reverse.map (fun k : Fin t.size ↦ s.child i k) ++ rest, false, none⟩) := by
        have hnested := head.nested ht
        have hpushed : ((List.range t.size).map fun k ↦ (s.entry ((s.nestedData i).slot k)).valuesIndex).reverse =
            (List.finRange t.size).reverse.map fun k : Fin t.size ↦ s.child i k := by
          rw [← List.map_coe_finRange_eq_range, List.map_map, List.map_reverse]
          rfl
        obtain ⟨-, -, -, -, hnode⟩ := head
        unfold searchTurn
        rw [if_neg (by simp)]
        dsimp only
        rw [hnested]
        dsimp only
        rw [hcount, hpushed]
        cases hn : s.node i <;> rw [hn] at hnode <;> cases t <;> simp_all [Tree.kind]
      have hall := searches_children (fun k rest ↦ ih k (hchild k) rest) (List.finRange t.size).reverse rest
      rw [any_children ht, length_paths, Nat.add_comm]
      exact Searches.trans ⟨1, Nat.le_refl 1, [i], _, .one hturn, rfl, rfl, fun _ ↦ rfl⟩ hall
    · have hturn : searchTurn s ⟨i :: rest, false, none⟩ =
          some ([i], ⟨rest, t.any ScalarValue.isGeometry, none⟩) := by
        obtain ⟨-, -, -, -, hnode⟩ := head
        unfold searchTurn
        rw [if_neg (by simp)]
        dsimp only
        cases hn : s.node i <;> rw [hn] at hnode <;> cases t <;> simp_all [Tree.kind, Tree.any, ScalarValue.isGeometry]
      have hpos : 1 ≤ t.paths.length := by
        rw [length_paths]
        omega
      exact ⟨1, hpos, [i], _, .one hturn, rfl, rfl, fun _ ↦ rfl⟩

end Searching

section Converting

variable {s : Storage ScalarValue} {t : Tree ScalarValue} {i : ℕ} {engine : VariantEngine}

def Tree.Fits (t : Tree ScalarValue) : Prop := t.All fun v ↦ v.isGeometry → v.bytes.length ≤ sizeMax / 2

theorem eventually_succ {P Q : ℕ → Prop} (h : ∀ᶠ n in atTop, P n) (hstep : ∀ n, P n → Q (n + 1)) :
    ∀ᶠ n in atTop, Q n := by
  obtain ⟨b, hb⟩ := eventually_atTop.mp h
  refine eventually_atTop.mpr ⟨b + 1, fun n hn ↦ ?_⟩
  obtain ⟨m, rfl⟩ := Nat.exists_eq_add_of_le' (Nat.one_le_of_lt hn)
  exact hstep m (hb m (Nat.le_of_succ_le_succ hn))

theorem nestedData_eq {childCount childrenIdx : ℕ} (h : s.node i = .array childCount childrenIdx ∨
    s.node i = .object childCount childrenIdx) : s.nestedData i = ⟨childCount, childrenIdx⟩ := by
  unfold Storage.nestedData
  rcases h with h | h <;> rw [h]

/-- With levels enough the builder is given the tree, converted. -/
theorem variantTree_reads (h : s.Reads i t) (hfits : t.Fits) :
    ∀ᶠ levels in atTop, variantTree s levels i = .ok (t.map hexed) := by
  induction t generalizing i with
  | null =>
    obtain ⟨⟨hnull, -, -, -, hnode⟩, -⟩ := h
    refine eventually_succ (.of_forall fun _ ↦ trivial) fun levels _ ↦ ?_
    rw [variantTree, hnull, if_neg Bool.false_ne_true]
    cases hn : s.node i <;> rw [hn] at hnode <;> simp_all [Tree.map]
  | scalar v =>
    obtain ⟨⟨hnull, -, -, -, hnode⟩, -⟩ := h
    refine eventually_succ (.of_forall fun _ ↦ trivial) fun levels _ ↦ ?_
    rw [variantTree, hnull, if_neg Bool.false_ne_true]
    cases hn : s.node i with
    | scalar w =>
      rw [hn] at hnode
      obtain rfl : w = v := hnode
      dsimp only
      rw [scalarAsHex_eq hfits]
      rfl
    | null | array _ _ | object _ _ =>
      rw [hn] at hnode
      exact hnode.elim
  | array size item ih =>
    obtain ⟨head, hchild⟩ := h
    have hnested := head.nested (.inr rfl)
    obtain ⟨hnull, -, -, -, hnode⟩ := head
    have hall := eventually_all.mpr fun k ↦ ih k (hchild k) (hfits k)
    refine eventually_succ hall fun levels hlevels ↦ ?_
    rw [variantTree, hnull, if_neg Bool.false_ne_true]
    cases hn : s.node i with
    | array childCount childrenIdx =>
      rw [hn] at hnode
      obtain rfl : childCount = size := hnode
      unfold Storage.child Storage.slot at hlevels
      rw [nestedData_eq (.inl hn)] at hnested hlevels
      dsimp only
      rw [hnested]
      dsimp only
      rw [collect_ok hlevels]
      rfl
    | null | scalar _ | object _ _ =>
      rw [hn] at hnode
      exact hnode.elim
  | object size key member ih =>
    obtain ⟨head, hchild⟩ := h
    have hnested := head.nested (.inl rfl)
    obtain ⟨hnull, -, -, -, hnode⟩ := head
    have hall := eventually_all.mpr fun k ↦ ih k (hchild k) (hfits k)
    refine eventually_succ hall fun levels hlevels ↦ ?_
    rw [variantTree, hnull, if_neg Bool.false_ne_true]
    cases hn : s.node i with
    | object childCount childrenIdx =>
      rw [hn] at hnode
      obtain ⟨rfl, hkeys⟩ := hnode
      have hkey (k : Fin childCount) := (hkeys k).2
      unfold Storage.child Storage.slot at hlevels
      unfold Storage.slot at hkey
      rw [nestedData_eq (.inr hn)] at hnested hlevels hkey
      dsimp only
      rw [hnested]
      dsimp only
      rw [collect_ok hlevels, ← funext hkey]
      rfl
    | null | scalar _ | array _ _ =>
      rw [hn] at hnode
      exact hnode.elim

def VariantEngine.Builds (engine : VariantEngine) (t : Tree ScalarValue) : Prop :=
  if engine.v2 then (engine.buildVariant t).Reads 0 t else ∃ t', Rebuilt id t t' ∧ (engine.toVariant t).Holds t'

/-- A VARIANT is converted into one with the same tree, each GEOMETRY in it replaced. Where
there is none it is not touched. -/
theorem variantGeometryAsHex_reads (h : s.Reads 0 t) (hunique : t.Unique) (hfits : t.Fits)
    (hbuilds : engine.Builds (t.map hexed)) (typeAlias : List Byte) :
    ∃ s', (∀ᶠ levels in atTop, variantGeometryAsHex engine levels typeAlias s =
        .ok (if t.any ScalarValue.isGeometry then [] else typeAlias, s')) ∧
      s'.Reads 0 (t.map hexed) ∧ (t.any ScalarValue.isGeometry = false → s' = s) := by
  obtain ⟨k, -, log, ⟨pending, geometry, thrown⟩, hturns, rfl, hthrown, hpending⟩ := searches_tree h []
  obtain rfl : thrown = none := hthrown
  have hend : searchTurn s ⟨pending, t.any ScalarValue.isGeometry, none⟩ = none := by
    cases hany : t.any ScalarValue.isGeometry with
    | true => rfl
    | false =>
      obtain rfl : pending = [] := hpending hany
      rfl
  have hsearch : ∀ᶠ levels in atTop, loop (searchTurn s) levels ⟨[0], false, none⟩ =
      some (log, ⟨pending, t.any ScalarValue.isGeometry, none⟩) :=
    eventually_atTop.mpr ⟨k, fun levels hle ↦ hturns.loop_eq hend hle⟩
  have head : s.Head 0 t := by
    obtain ⟨head, -⟩ := h
    exact head
  have hopened : s.opened = .ok s := if_pos (.inr (Nat.ne_zero_of_lt head.2.1))
  have hunfold (levels : ℕ) (hloop : loop (searchTurn s) levels ⟨[0], false, none⟩ =
      some (log, ⟨pending, t.any ScalarValue.isGeometry, none⟩)) :
      variantGeometryAsHex engine levels typeAlias s =
        if t.any ScalarValue.isGeometry then
          match variantTree s levels 0 with
          | .error e => .error e
          | .ok tree =>
            if engine.v2 then .ok ([], engine.buildVariant tree)
            else
              match restoreObjectOrder s (engine.toVariant tree) levels with
              | none => .error .outOfLevels
              | some (_, .error message) => .error (.thrown message)
              | some (_, .ok target) => .ok ([], target.value)
        else .ok (typeAlias, s) := by
    unfold variantGeometryAsHex
    rw [hopened]
    dsimp only
    rw [hloop]
    cases t.any ScalarValue.isGeometry <;> rfl
  have htree := variantTree_reads h hfits
  cases hany : t.any ScalarValue.isGeometry with
  | false =>
    have hmap : t.map hexed = t := Tree.map_eq_self (fun v hv ↦ (hexed_eq_iff v).mpr hv) hany
    refine ⟨s, hsearch.mono fun levels hloop ↦ ?_, hmap.symm ▸ h, fun _ ↦ rfl⟩
    rw [hunfold levels hloop, hany, if_neg Bool.false_ne_true, if_neg Bool.false_ne_true]
  | true =>
    unfold VariantEngine.Builds at hbuilds
    split_ifs at hbuilds with hv2
    · refine ⟨engine.buildVariant (t.map hexed), ?_, hbuilds, by simp⟩
      filter_upwards [hsearch, htree] with levels hloop hlevels
      rw [hunfold levels hloop, hany, if_pos rfl, hlevels]
      dsimp only
      rw [if_pos hv2, if_pos rfl]
    · obtain ⟨t', hrebuilt, hholds⟩ := hbuilds
      obtain ⟨log', target, hrun, -, hreads⟩ := exists_restored h hunique hrebuilt.of_map hholds
      refine ⟨target.value, ?_, hreads, by simp⟩
      filter_upwards [hsearch, htree, eventually_ge_atTop t.paths.length] with levels hloop hlevels hle
      rw [hunfold levels hloop, hany, if_pos rfl, hlevels]
      dsimp only
      rw [if_neg hv2, hrun levels hle, if_pos rfl]

end Converting

end PdoDuckdb.Bridge
