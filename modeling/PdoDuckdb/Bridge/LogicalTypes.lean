import PdoDuckdb.Bytes
import Mathlib.Data.List.OfFn
import Mathlib.Data.List.FinRange

namespace PdoDuckdb.Bridge

/-- A `duckdb::LogicalType`, with the alias that it may have. A `struct` is a STRUCT or,
where it is a tuple, a TUPLE of the 2.0 engine. -/
inductive LogicalType
  | varchar (typeAlias collation : List Byte)
  | geometry (typeAlias crs : List Byte)
  | variant (typeAlias : List Byte)
  | other (typeAlias : List Byte) (id : ℕ)
  | list (typeAlias : List Byte) (child : LogicalType)
  | array (typeAlias : List Byte) (child : LogicalType) (size : ℕ)
  | struct (typeAlias : List Byte) (tuple : Bool) (names : List (List Byte)) (child : Fin names.length → LogicalType)
  | map (typeAlias : List Byte) (key value : LogicalType)
  | union (typeAlias : List Byte) (names : List (List Byte)) (member : Fin names.length → LogicalType)

namespace LogicalType

variable {t : LogicalType}

def children : LogicalType → List LogicalType
  | .list _ child | .array _ child _ => [child]
  | .struct _ _ _ child => List.ofFn child
  | .map _ key value => [key, value]
  | .union _ _ member => List.ofFn member
  | .varchar _ _ | .geometry _ _ | .variant _ | .other _ _ => []

/-- What holds of a type whenever it holds of its children holds of all types. -/
theorem childInduction {P : LogicalType → Prop} (h : ∀ t, (∀ c ∈ t.children, P c) → P t) (t : LogicalType) : P t := by
  induction t with
  | varchar typeAlias collation => exact h _ fun _ hc ↦ absurd hc List.not_mem_nil
  | geometry typeAlias crs => exact h _ fun _ hc ↦ absurd hc List.not_mem_nil
  | variant typeAlias => exact h _ fun _ hc ↦ absurd hc List.not_mem_nil
  | other typeAlias id => exact h _ fun _ hc ↦ absurd hc List.not_mem_nil
  | list typeAlias child ih =>
    refine h _ fun c hc ↦ ?_
    rw [List.mem_singleton.mp hc]
    exact ih
  | array typeAlias child size ih =>
    refine h _ fun c hc ↦ ?_
    rw [List.mem_singleton.mp hc]
    exact ih
  | struct typeAlias tuple names child ih =>
    refine h _ fun c hc ↦ ?_
    obtain ⟨i, rfl⟩ := List.mem_ofFn.mp hc
    exact ih i
  | map typeAlias key value ihKey ihValue =>
    refine h _ fun c hc ↦ ?_
    rcases List.mem_pair.mp hc with rfl | rfl
    · exact ihKey
    · exact ihValue
  | union typeAlias names member ih =>
    refine h _ fun c hc ↦ ?_
    obtain ⟨i, rfl⟩ := List.mem_ofFn.mp hc
    exact ih i

/-- A type with all the types in it, each after those before it, by the ordinals that lead there. -/
def nodes : LogicalType → List (List ℕ × LogicalType)
  | .list typeAlias child => ([], .list typeAlias child) :: child.nodes.map fun n ↦ (0 :: n.1, n.2)
  | .array typeAlias child size => ([], .array typeAlias child size) :: child.nodes.map fun n ↦ (0 :: n.1, n.2)
  | .struct typeAlias tuple names child => ([], .struct typeAlias tuple names child) ::
      (List.ofFn fun i ↦ (child i).nodes).zipIdx.flatMap fun l ↦ l.1.map fun n ↦ (l.2 :: n.1, n.2)
  | .map typeAlias key value => ([], .map typeAlias key value) ::
      ((key.nodes.map fun n ↦ (0 :: n.1, n.2)) ++ value.nodes.map fun n ↦ (1 :: n.1, n.2))
  | .union typeAlias names member => ([], .union typeAlias names member) ::
      (List.ofFn fun i ↦ (member i).nodes).zipIdx.flatMap fun l ↦ l.1.map fun n ↦ (l.2 :: n.1, n.2)
  | .varchar typeAlias collation => [([], .varchar typeAlias collation)]
  | .geometry typeAlias crs => [([], .geometry typeAlias crs)]
  | .variant typeAlias => [([], .variant typeAlias)]
  | .other typeAlias id => [([], .other typeAlias id)]

def inChildren (i : ℕ) (cs : List LogicalType) : List (List ℕ × LogicalType) :=
  (cs.zipIdx i).flatMap fun c ↦ c.1.nodes.map fun n ↦ (c.2 :: n.1, n.2)

theorem inChildren_cons (i : ℕ) (c : LogicalType) (cs : List LogicalType) :
    inChildren i (c :: cs) = (c.nodes.map fun n ↦ (i :: n.1, n.2)) ++ inChildren (i + 1) cs := by
  unfold inChildren
  rw [List.zipIdx_cons, List.flatMap_cons]

theorem nodes_eq (t : LogicalType) : t.nodes = ([], t) :: inChildren 0 t.children := by
  have hfields {n : ℕ} (child : Fin n → LogicalType) :
      (List.ofFn fun i ↦ (child i).nodes).zipIdx.flatMap (fun l ↦ l.1.map fun n ↦ (l.2 :: n.1, n.2)) =
        inChildren 0 (List.ofFn child) := by
    have hmap : (List.ofFn fun i ↦ (child i).nodes) = (List.ofFn child).map nodes := List.map_ofFn.symm
    unfold inChildren
    rw [hmap, List.zipIdx_map, List.flatMap_map]
    rfl
  cases t with
  | struct typeAlias tuple names child => exact congrArg _ (hfields child)
  | union typeAlias names member => exact congrArg _ (hfields member)
  | list typeAlias child | array typeAlias child size => simp [nodes, inChildren, children]
  | map typeAlias key value => simp [nodes, inChildren, children]
  | varchar typeAlias collation | geometry typeAlias crs | variant typeAlias | other typeAlias id => rfl

theorem length_nodes (t : LogicalType) : t.nodes.length = (inChildren 0 t.children).length + 1 := by
  rw [nodes_eq, List.length_cons]

def at? : LogicalType → List ℕ → Option LogicalType
  | t, [] => some t
  | t, i :: path => (t.children[i]?).bind fun c ↦ c.at? path

theorem mem_inChildren {i : ℕ} {cs : List LogicalType} {path : List ℕ} :
    (path, t) ∈ inChildren i cs ↔ ∃ j c p, cs[j]? = some c ∧ path = (i + j) :: p ∧ (p, t) ∈ c.nodes := by
  unfold inChildren
  rw [List.mem_flatMap]
  constructor
  · rintro ⟨⟨c, k⟩, hc, hn⟩
    obtain ⟨hle, hget⟩ := List.mk_mem_zipIdx_iff_le_and_getElem?_sub.mp hc
    obtain ⟨n, hmem, heq⟩ := List.mem_map.mp hn
    obtain ⟨rfl, rfl⟩ := Prod.mk.inj heq
    exact ⟨k - i, c, n.1, hget, by rw [Nat.add_sub_cancel' hle], hmem⟩
  · rintro ⟨j, c, p, hget, rfl, hn⟩
    refine ⟨(c, i + j), List.mk_mem_zipIdx_iff_le_and_getElem?_sub.mpr ⟨Nat.le_add_right i j, ?_⟩,
      List.mem_map.mpr ⟨(p, t), hn, rfl⟩⟩
    rwa [Nat.add_sub_cancel_left]

/-- The nodes are the types that ordinals lead to. -/
theorem mem_nodes (t : LogicalType) {path : List ℕ} {c : LogicalType} :
    (path, c) ∈ t.nodes ↔ t.at? path = some c := by
  induction path generalizing t with
  | nil =>
    rw [nodes_eq, List.mem_cons, at?]
    constructor
    · rintro (h | h)
      · exact congrArg some (Prod.mk.inj h).2.symm
      · obtain ⟨j, d, p, -, hpath, -⟩ := mem_inChildren.mp h
        cases hpath
    · rintro h
      exact .inl (congrArg _ (Option.some.inj h).symm)
  | cons i path ih =>
    rw [nodes_eq, List.mem_cons, at?, Option.bind_eq_some_iff]
    constructor
    · rintro (h | h)
      · cases (Prod.mk.inj h).1
      · obtain ⟨j, d, p, hget, hpath, hn⟩ := mem_inChildren.mp h
        obtain ⟨rfl, rfl⟩ := List.cons.inj hpath
        rw [Nat.zero_add] at *
        exact ⟨d, hget, (ih d).mp hn⟩
    · rintro ⟨d, hget, hd⟩
      exact .inr (mem_inChildren.mpr ⟨i, d, path, hget, by rw [Nat.zero_add], (ih d).mpr hd⟩)

theorem inChildren_sorted {i : ℕ} {cs : List LogicalType}
    (h : ∀ c ∈ cs, (c.nodes.map Prod.fst).Pairwise (List.Lex (· < ·))) :
    ((inChildren i cs).map Prod.fst).Pairwise (List.Lex (· < ·)) := by
  induction cs generalizing i with
  | nil => exact .nil
  | cons c cs ih =>
    rw [inChildren_cons, List.map_append, List.pairwise_append]
    refine ⟨?_, ih fun d hd ↦ h d (List.mem_cons_of_mem _ hd), fun p hp q hq ↦ ?_⟩
    · rw [List.map_map, List.pairwise_map]
      exact (List.pairwise_map.mp (h c List.mem_cons_self)).imp .cons
    · obtain ⟨n, hn, rfl⟩ := List.mem_map.mp hp
      obtain ⟨m, -, rfl⟩ := List.mem_map.mp hn
      obtain ⟨⟨q, d⟩, hmem, rfl⟩ := List.mem_map.mp hq
      obtain ⟨j, -, q, -, rfl, -⟩ := mem_inChildren.mp hmem
      exact .rel (by omega)

/-- The nodes come in the order of the ordinals that lead to them. -/
theorem nodes_sorted (t : LogicalType) : (t.nodes.map Prod.fst).Pairwise (List.Lex (· < ·)) := by
  induction t using childInduction with
  | h t ih =>
    rw [nodes_eq, List.map_cons, List.pairwise_cons]
    refine ⟨fun p hp ↦ ?_, inChildren_sorted ih⟩
    obtain ⟨⟨p, d⟩, hmem, rfl⟩ := List.mem_map.mp hp
    obtain ⟨j, -, q, -, rfl, -⟩ := mem_inChildren.mp hmem
    exact .nil

end LogicalType

end PdoDuckdb.Bridge
