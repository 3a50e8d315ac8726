import PdoDuckdb.Bytes
import Mathlib.Data.List.OfFn
import Mathlib.Data.List.FinRange
import Mathlib.Logic.Function.Basic

namespace PdoDuckdb.Bridge

variable {σ τ : Type}

/-- The tree that a VARIANT stands for; the members of an object come in an order. -/
inductive Tree (σ : Type)
  | null
  | scalar (v : σ)
  | array (size : ℕ) (item : Fin size → Tree σ)
  | object (size : ℕ) (key : Fin size → List Byte) (member : Fin size → Tree σ)

namespace Tree

variable {t : Tree σ} {path : List ℕ}

def size : Tree σ → ℕ
  | .null | .scalar _ => 0
  | .array size _ | .object size _ _ => size

def child : (t : Tree σ) → Fin t.size → Tree σ
  | .null, k | .scalar _, k => k.elim0
  | .array _ item, k => item k
  | .object _ _ member, k => member k

theorem childInduction {P : Tree σ → Prop} (h : ∀ t, (∀ k, P (t.child k)) → P t) (t : Tree σ) : P t := by
  induction t with
  | null => exact h _ fun k ↦ k.elim0
  | scalar v => exact h _ fun k ↦ k.elim0
  | array size item ih => exact h _ ih
  | object size key member ih => exact h _ ih

def map (f : σ → τ) : Tree σ → Tree τ
  | .null => .null
  | .scalar v => .scalar (f v)
  | .array size item => .array size fun k ↦ (item k).map f
  | .object size key member => .object size key fun k ↦ (member k).map f

def Unique : Tree σ → Prop
  | .null | .scalar _ => True
  | .array _ item => ∀ k, (item k).Unique
  | .object _ key member => Function.Injective key ∧ ∀ k, (member k).Unique

theorem Unique.map (f : σ → τ) (h : t.Unique) : (t.map f).Unique := by
  induction t with
  | null | scalar v => exact trivial
  | array size item ih => exact fun k ↦ ih k (h k)
  | object size key member ih => exact ⟨h.1, fun k ↦ ih k (h.2 k)⟩

def any (p : σ → Bool) : Tree σ → Bool
  | .null => false
  | .scalar v => p v
  | .array _ item => decide (∃ k, (item k).any p)
  | .object _ _ member => decide (∃ k, (member k).any p)

def All (P : σ → Prop) : Tree σ → Prop
  | .null => True
  | .scalar v => P v
  | .array _ item => ∀ k, (item k).All P
  | .object _ _ member => ∀ k, (member k).All P

theorem map_eq_self {f : σ → σ} {p : σ → Bool} (hp : ∀ v, p v = false → f v = v) (h : t.any p = false) :
    t.map f = t := by
  induction t with
  | null => rfl
  | scalar v => exact congrArg _ (hp v h)
  | array size item ih =>
    rw [any, decide_eq_false_iff_not, not_exists] at h
    exact congrArg _ (funext fun k ↦ ih k (by simpa using h k))
  | object size key member ih =>
    rw [any, decide_eq_false_iff_not, not_exists] at h
    exact congrArg _ (funext fun k ↦ ih k (by simpa using h k))

theorem any_map {f : σ → τ} {p : τ → Bool} (hp : ∀ v, p (f v) = false) (t : Tree σ) : (t.map f).any p = false := by
  induction t with
  | null => rfl
  | scalar v => exact hp v
  | array size item ih | object size key member ih => simp [map, any, ih]

theorem all_map {f : σ → τ} {P : τ → Prop} (hP : ∀ v, P (f v)) (t : Tree σ) : (t.map f).All P := by
  induction t with
  | null => exact trivial
  | scalar v => exact hP v
  | array size item ih | object size key member ih => exact ih

/-- The paths to the nodes, from the last child of each to the first. -/
def paths : Tree σ → List (List ℕ)
  | .null | .scalar _ => [[]]
  | .array size item => [] :: (List.finRange size).reverse.flatMap fun k ↦ (item k).paths.map (k.1 :: ·)
  | .object size _ member => [] :: (List.finRange size).reverse.flatMap fun k ↦ (member k).paths.map (k.1 :: ·)

theorem paths_eq (t : Tree σ) :
    t.paths = [] :: (List.finRange t.size).reverse.flatMap fun k ↦ (t.child k).paths.map (k.1 :: ·) := by
  cases t <;> rfl

def at? : Tree σ → List ℕ → Option (Tree σ)
  | t, [] => some t
  | t, k :: path => if h : k < t.size then (t.child ⟨k, h⟩).at? path else none

/-- The paths are those that lead to a node. -/
theorem mem_paths (t : Tree σ) : path ∈ t.paths ↔ (t.at? path).isSome := by
  induction path generalizing t with
  | nil => rw [paths_eq]; simp [at?]
  | cons k path ih =>
    rw [paths_eq, List.mem_cons, List.mem_flatMap, at?]
    constructor
    · rintro (h | ⟨l, -, h⟩)
      · cases h
      · obtain ⟨p, hp, heq⟩ := List.mem_map.mp h
        obtain ⟨rfl, rfl⟩ := List.cons.inj heq
        rw [dif_pos l.2]
        exact (ih _).mp hp
    · intro h
      split_ifs at h with hk
      · refine .inr ⟨⟨k, hk⟩, ?_, List.mem_map.mpr ⟨path, (ih _).mpr h, rfl⟩⟩
        exact List.mem_reverse.mpr (List.mem_finRange _)
      · cases h

theorem paths_nodup (t : Tree σ) : t.paths.Nodup := by
  induction t using childInduction with
  | h t ih =>
    rw [paths_eq, List.nodup_cons]
    constructor
    · intro h
      obtain ⟨k, -, hk⟩ := List.mem_flatMap.mp h
      obtain ⟨p, -, hp⟩ := List.mem_map.mp hk
      cases hp
    · rw [List.nodup_flatMap]
      constructor
      · exact fun k _ ↦ (ih k).map List.cons_injective
      · refine (List.nodup_reverse.mpr (List.nodup_finRange _)).imp fun {k l} hne ↦ ?_
        intro path hk hl
        obtain ⟨p, -, rfl⟩ := List.mem_map.mp hk
        obtain ⟨q, -, hq⟩ := List.mem_map.mp hl
        exact hne (Fin.ext (List.cons.inj hq).1.symm)

end Tree

/-- What a VARIANT has stored for one of its nodes. The children of a container come from a
place in the list of all children on. -/
inductive StoredNode (σ : Type)
  | null
  | scalar (v : σ)
  | array (childCount childrenIdx : ℕ)
  | object (childCount childrenIdx : ℕ)

/-- A child as the list has it: the index of its key, if it has one, and that of its node. -/
structure ChildEntry where
  keysIndex : ℕ
  keysIndexValid : Bool
  valuesIndex : ℕ

/-- `VariantStorage`: a VARIANT as its nodes, children and keys. -/
structure Storage (σ : Type) where
  isNull : Bool
  valuesLength : ℕ
  node : ℕ → StoredNode σ
  childrenLength : ℕ
  entry : ℕ → ChildEntry
  key : ℕ → List Byte

/-- `pdd_bridge_variant_kind`. -/
inductive Kind
  | sqlNull
  | null
  | object
  | array
  | scalar
deriving DecidableEq, Repr

/-- `VariantNestedData`. -/
structure NestedData where
  childCount : ℕ
  childrenIdx : ℕ
deriving DecidableEq, Repr

/-- The place of a child in the list of all children, in `uint32_t`. -/
def NestedData.slot (d : NestedData) (k : ℕ) : ℕ := (d.childrenIdx + k) % 0x100000000

namespace Storage

variable {s v : Storage σ} {t : Tree σ} {i : ℕ}

/-- The constructor of `VariantStorage`. -/
def opened (s : Storage σ) : Except String (Storage σ) :=
  if s.isNull ∨ s.valuesLength ≠ 0 then .ok s else .error "VARIANT has no root value"

def kind (s : Storage σ) (i : ℕ) : Kind :=
  if s.isNull then .sqlNull
  else
    match s.node i with
    | .null => .null
    | .scalar _ => .scalar
    | .array _ _ => .array
    | .object _ _ => .object

def nestedData (s : Storage σ) (i : ℕ) : NestedData :=
  match s.node i with
  | .null | .scalar _ => ⟨0, 0⟩
  | .array childCount childrenIdx | .object childCount childrenIdx => ⟨childCount, childrenIdx⟩

def nested (s : Storage σ) (i : ℕ) : Except String NestedData :=
  let d := s.nestedData i
  if s.kind i ≠ .object ∧ s.kind i ≠ .array then .error "VARIANT node is not a container"
  else if d.childrenIdx ≤ s.childrenLength ∧ d.childCount ≤ s.childrenLength - d.childrenIdx then .ok d
  else .error "VARIANT child range is invalid"

def slot (s : Storage σ) (i k : ℕ) : ℕ := (s.nestedData i).slot k

def child (s : Storage σ) (i k : ℕ) : ℕ := (s.entry (s.slot i k)).valuesIndex

def keyAt (s : Storage σ) (slot : ℕ) : List Byte := s.key (s.entry slot).keysIndex

def Head (s : Storage σ) (i : ℕ) (t : Tree σ) : Prop :=
  s.isNull = false ∧ i < s.valuesLength ∧
    (s.nestedData i).childrenIdx ≤ s.childrenLength ∧
    (s.nestedData i).childCount ≤ s.childrenLength - (s.nestedData i).childrenIdx ∧
    match s.node i, t with
    | .null, .null => True
    | .scalar v, .scalar w => v = w
    | .array childCount _, .array size _ => childCount = size
    | .object childCount _, .object size key _ => childCount = size ∧
        ∀ k : Fin size, (s.entry (s.slot i k)).keysIndexValid ∧ s.keyAt (s.slot i k) = key k
    | _, _ => False

inductive Reads (s : Storage σ) : ℕ → Tree σ → Prop
  | node {i : ℕ} {t : Tree σ} : s.Head i t → (∀ k : Fin t.size, s.Reads (s.child i k) (t.child k)) → s.Reads i t

def slots (s : Storage σ) : Tree σ → ℕ → List ℕ
  | .null, _ | .scalar _, _ => []
  | .array size item, i => ((List.finRange size).map fun k : Fin size ↦ s.slot i k) ++
      (List.finRange size).flatMap fun k ↦ s.slots (item k) (s.child i k)
  | .object size _ member, i => ((List.finRange size).map fun k : Fin size ↦ s.slot i k) ++
      (List.finRange size).flatMap fun k ↦ s.slots (member k) (s.child i k)

theorem slots_eq (s : Storage σ) (t : Tree σ) (i : ℕ) :
    s.slots t i = ((List.finRange t.size).map fun k : Fin t.size ↦ s.slot i k) ++
      (List.finRange t.size).flatMap fun k ↦ s.slots (t.child k) (s.child i k) := by
  cases t <;> rfl

def indexAt (s : Storage σ) : ℕ → List ℕ → ℕ
  | i, [] => i
  | i, k :: path => s.indexAt (s.child i k) path

/-- A node reads as one tree at most. -/
theorem Reads.unique {t' : Tree σ} (h : s.Reads i t) (h' : s.Reads i t') : t = t' := by
  induction t using Tree.childInduction generalizing i t' with
  | h t ih =>
    obtain ⟨⟨-, -, -, -, hnode⟩, hchild⟩ := h
    obtain ⟨⟨-, -, -, -, hnode'⟩, hchild'⟩ := h'
    cases hn : s.node i with
    | null =>
      rw [hn] at hnode hnode'
      cases t <;> cases t' <;> first | exact hnode.elim | exact hnode'.elim | rfl
    | scalar v =>
      rw [hn] at hnode hnode'
      cases t <;> cases t' <;> first | exact hnode.elim | exact hnode'.elim | exact congrArg _ (hnode.symm.trans hnode')
    | array childCount childrenIdx =>
      rw [hn] at hnode hnode'
      cases t with
      | array size item =>
        cases t' with
        | array size' item' =>
          cases hnode
          cases hnode'
          exact congrArg _ (funext fun k ↦ ih k (hchild k) (hchild' k))
        | _ => exact hnode'.elim
      | _ => exact hnode.elim
    | object childCount childrenIdx =>
      rw [hn] at hnode hnode'
      cases t with
      | object size key member =>
        cases t' with
        | object size' key' member' =>
          obtain ⟨hsize, hkey⟩ := hnode
          obtain ⟨hsize', hkey'⟩ := hnode'
          cases hsize
          cases hsize'
          congr 1
          · exact funext fun k ↦ (hkey k).2.symm.trans (hkey' k).2
          · exact funext fun k ↦ ih k (hchild k) (hchild' k)
        | _ => exact hnode'.elim
      | _ => exact hnode.elim

end Storage

end PdoDuckdb.Bridge
