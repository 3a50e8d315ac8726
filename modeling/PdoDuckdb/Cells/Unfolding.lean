import PdoDuckdb.Cells.VariantInput
import PdoDuckdb.Library.Collecting
import Mathlib.Logic.Relation

namespace PdoDuckdb.Cells

open Value Relation

variable {engine : Engine} {H : Heap} {n : ℕ} {z y : Zval}

namespace Heap

def tableOf (H : Heap) (z : Zval) : Option ℕ :=
  match H.deref z with
  | .array table => some table
  | .object _ table => some table
  | _ => none

def children (H : Heap) (z : Zval) : List Zval :=
  match H.tableOf z with
  | some table => (H.table table).entries.map Prod.snd
  | none => []

def Step (H : Heap) (z y : Zval) : Prop := y ∈ H.children z

/-- A value contains itself, or one that does. -/
def Cyclic (H : Heap) (z : Zval) : Prop :=
  ∃ y y' table, ReflTransGen H.Step z y ∧ TransGen H.Step y y' ∧
    H.tableOf y = some table ∧ H.tableOf y' = some table

def Within (H : Heap) : ℕ → Zval → Prop
  | 0, _ => False
  | n + 1, z => ∀ y ∈ H.children z, H.Within n y

end Heap

def leafNode (engine : Engine) : Zval → Option Node
  | .null => some .null
  | .bool b => some (.scalar (.bool b))
  | .long n => some (.scalar (.integer .bigint n.toInt))
  | .double bits => some (.scalar (.double bits))
  | .string s => if engine.validUtf8 s then some (.scalar (.varchar s)) else none
  | _ => none

def Table.KeysFit (t : Table) : Prop := ∀ e ∈ t.entries, (keyBytes e.1).length ≤ uint32Max

instance (t : Table) : Decidable t.KeysFit := by
  unfold Table.KeysFit
  infer_instance

def Table.objectNode (t : Table) (child : Zval → Option Node) : Option Node :=
  if t.KeysFit then
    (t.entries.mapM fun e ↦ child e.2).map fun nodes ↦
      .object (sortMembers ((t.entries.map fun e ↦ keyBytes e.1).zip nodes))
  else none

/-- An array is a list or has members; every kind of a container's values is one of a VARIANT. -/
def Table.node (t : Table) (child : Zval → Option Node) : Option Node :=
  if t.isList then (t.entries.mapM fun e ↦ child e.2).map .array else t.objectNode child

def Heap.unfold (engine : Engine) (H : Heap) : ℕ → Zval → Option Node
  | 0, _ => none
  | n + 1, z =>
    match H.deref z with
    | .array table => (H.table table).node (H.unfold engine n)
    | .object className table =>
      if className = "stdClass" then (H.table table).objectNode (H.unfold engine n) else none
    | z => leafNode engine z

def Heap.Supported (engine : Engine) (H : Heap) (z : Zval) : Prop :=
  match H.deref z with
  | .array table => (H.table table).isList ∨ (H.table table).KeysFit
  | .object className table => className = "stdClass" ∧ (H.table table).KeysFit
  | z => (leafNode engine z).isSome

theorem isSome_mapM {α β : Type} {f : α → Option β} {l : List α} :
    (l.mapM f).isSome ↔ ∀ a ∈ l, (f a).isSome := by
  induction l with
  | nil => simp
  | cons a l ih =>
    rw [List.mapM_cons, List.forall_mem_cons, ← ih]
    cases f a <;> cases l.mapM f <;> simp

theorem Table.isSome_objectNode {t : Table} {child : Zval → Option Node} :
    (t.objectNode child).isSome ↔ t.KeysFit ∧ ∀ e ∈ t.entries, (child e.2).isSome := by
  unfold objectNode
  split
  · rename_i h
    rw [Option.isSome_map, isSome_mapM]
    exact ⟨fun hs ↦ ⟨h, hs⟩, fun hs ↦ hs.2⟩
  · rename_i h
    exact ⟨fun hs ↦ absurd hs (by simp), fun hs ↦ absurd hs.1 h⟩

theorem Table.isSome_node {t : Table} {child : Zval → Option Node} :
    (t.node child).isSome ↔ (t.isList ∨ t.KeysFit) ∧ ∀ e ∈ t.entries, (child e.2).isSome := by
  unfold node
  by_cases hl : t.isList
  · rw [if_pos hl, Option.isSome_map, isSome_mapM]
    exact ⟨fun hs ↦ ⟨.inl hl, hs⟩, fun hs ↦ hs.2⟩
  · rw [if_neg hl, isSome_objectNode, or_iff_right hl]

namespace Heap

theorem isSome_unfold_succ : (H.unfold engine (n + 1) z).isSome ↔
    H.Supported engine z ∧ ∀ y ∈ H.children z, (H.unfold engine n y).isSome := by
  rw [Heap.unfold]
  unfold Supported children tableOf
  split
  · rw [Table.isSome_node, List.forall_mem_map]
  · split
    · rename_i hc
      rw [Table.isSome_objectNode, List.forall_mem_map]
      exact ⟨fun h ↦ ⟨⟨hc, h.1⟩, h.2⟩, fun h ↦ ⟨h.1.2, h.2⟩⟩
    · rename_i hc
      exact ⟨fun h ↦ absurd h (by simp), fun h ↦ absurd h.1.1 hc⟩
  · simp

/-- What unfolds is what is not too deep and has supported kinds only. -/
theorem isSome_unfold : (H.unfold engine n z).isSome ↔
    H.Within n z ∧ ∀ y, ReflTransGen H.Step z y → H.Supported engine y := by
  induction n generalizing z with
  | zero => exact ⟨fun h ↦ absurd h (by simp [unfold]), fun h ↦ h.1.elim⟩
  | succ n ih =>
    rw [isSome_unfold_succ]
    constructor
    · rintro ⟨hz, hchildren⟩
      refine ⟨fun y hy ↦ (ih.mp (hchildren y hy)).1, fun y hy ↦ ?_⟩
      rcases ReflTransGen.cases_head hy with rfl | ⟨x, hx, hxy⟩
      · exact hz
      · exact (ih.mp (hchildren x hx)).2 y hxy
    · rintro ⟨hwithin, hall⟩
      refine ⟨hall z .refl, fun y hy ↦ ih.mpr ⟨hwithin y hy, fun x hx ↦ hall x ?_⟩⟩
      exact .head hy hx

theorem Within.succ (h : H.Within n z) : H.Within (n + 1) z := by
  induction n generalizing z with
  | zero => exact h.elim
  | succ n ih => exact fun y hy ↦ ih (h y hy)

theorem Within.mono {m : ℕ} (h : H.Within n z) (hm : n ≤ m) : H.Within m z := by
  induction hm with
  | refl => exact h
  | step _ ih => exact ih.succ

theorem Within.of_contains (h : H.Within n z) (hy : ReflTransGen H.Step z y) : H.Within n y := by
  induction hy with
  | refl => exact h
  | tail _ hstep ih =>
    cases n with
    | zero => exact ih.elim
    | succ n => exact (ih _ hstep).succ

theorem Within.of_children_eq {z' : Zval} (h : H.Within n z) (hsame : H.children z = H.children z') :
    H.Within n z' := by
  cases n with
  | zero => exact h.elim
  | succ n => exact fun y hy ↦ h y (hsame ▸ hy)

/-- A value of a finite depth does not come back inside itself. -/
theorem Within.tableOf_ne (h : H.Within n z) (hy : TransGen H.Step z y) {table : ℕ}
    (hz : H.tableOf z = some table) : H.tableOf y ≠ some table := by
  intro hyt
  have hsame : H.children y = H.children z := by
    unfold children
    rw [hz, hyt]
  obtain ⟨x, hx, hxy⟩ := TransGen.head'_iff.mp hy
  induction n with
  | zero => exact h
  | succ n ih => exact ih (((h x hx).of_contains hxy).of_children_eq hsame)

theorem Within.not_cyclic (h : H.Within n z) : ¬ H.Cyclic z := by
  rintro ⟨y, y', table, hzy, hyy, hy, hy'⟩
  exact (h.of_contains hzy).tableOf_ne hyy hy hy'

theorem unfold_eq_none_of_cyclic (h : H.Cyclic z) : H.unfold engine n z = none := by
  by_contra hne
  exact (isSome_unfold.mp (Option.isSome_iff_ne_none.mpr hne)).1.not_cyclic h

end Heap

end PdoDuckdb.Cells
