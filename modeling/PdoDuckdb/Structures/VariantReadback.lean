import PdoDuckdb.Structures.Storage

namespace PdoDuckdb.Structures

open Library Library.Collecting Value
open Cells (Heap Node Table Engine keyBytes htMaxSize leafNode sortMembers)

variable {B : Bridge} {H : Heap} {engine : Engine} {n levels : ℕ} {z : Cells.Zval}

/-- A native value is the tagged tree of a PHP value, up to the order of the
members of an object. -/
inductive Tagged (B : Bridge) (H : Heap) : Cells.Zval → Zval → Prop
  | null {z : Cells.Zval} : H.deref z = .null → Tagged B H z (.tagged (ascii "NULL") .null)
  | bool {z : Cells.Zval} {b : Bool} : H.deref z = .bool b →
      Tagged B H z (.tagged (B.scalarDeclaration (.bool b)) (.long (if b then 1 else 0)))
  | long {z : Cells.Zval} {l : Int64} : H.deref z = .long l →
      Tagged B H z (.tagged (B.scalarDeclaration (.integer .bigint l.toInt)) (.long l.toInt))
  | double {z : Cells.Zval} {bits : UInt64} : H.deref z = .double bits →
      Tagged B H z (.tagged (B.scalarDeclaration (.double bits)) (.double bits))
  | string {z : Cells.Zval} {s : List Byte} : H.deref z = .string s →
      Tagged B H z (.tagged (B.scalarDeclaration (.varchar s)) (.string s))
  | list {z : Cells.Zval} {table : ℕ} {vs : List Zval} : H.deref z = .array table →
      (H.table table).isList → List.Forall₂ (fun e v ↦ Tagged B H e.2 v) (H.table table).entries vs →
      Tagged B H z (.tagged (ascii "ARRAY") (.list vs))
  | object {z : Cells.Zval} {table : ℕ} {vs : List Zval} {members : List (List Byte × Zval)} :
      (H.deref z = .array table ∧ ¬ (H.table table).isList) ∨ H.deref z = .object "stdClass" table →
      List.Forall₂ (fun e v ↦ Tagged B H e.2 v) (H.table table).entries vs →
      members.Perm (((H.table table).entries.map fun e ↦ keyBytes e.1).zip vs) →
      Tagged B H z (.tagged (ascii "OBJECT") (.list (members.map fun m ↦ .entry (.string m.1) m.2)))

section Trees

def ReadsTree (B : Bridge) (H : Heap) (levels : ℕ) (z : Cells.Zval) (node : Node) : Prop :=
  Decided (H.Within levels z) (Tagged B H z) (variantZval B levels (some node))

theorem length_sortMembers (members : List (List Byte × Node)) :
    (sortMembers members).length = members.length :=
  (List.perm_insertionSort _ members).length_eq

theorem entries_forall₂ {t : Table} {nodes : List Node} {f : Cells.Zval → Option Node}
    (hnodes : t.entries.mapM (fun e ↦ f e.2) = some nodes)
    (hread : ∀ z node, f z = some node → ReadsTree B H levels z node) :
    List.Forall₂ (fun e node ↦ ReadsTree B H levels e.2 node) t.entries nodes :=
  (Collecting.mapM_eq_some.mp hnodes).imp fun _ _ h ↦ hread _ _ h

variable {t : Table} {nodes : List Node} {table : ℕ}

theorem within_table (ht : H.tableOf z = some table) :
    H.Within (levels + 1) z ↔ ∀ e ∈ (H.table table).entries, H.Within levels e.2 := by
  show (∀ y ∈ H.children z, H.Within levels y) ↔ _
  unfold Heap.children
  rw [ht]
  exact List.forall_mem_map

theorem readsTree_list (hz : H.deref z = .array table) (hlist : (H.table table).isList)
    (h : List.Forall₂ (fun e node ↦ ReadsTree B H levels e.2 node) (H.table table).entries nodes) :
    ReadsTree B H (levels + 1) z (.array nodes) := by
  have hlen : nodes.length ≤ htMaxSize := h.length_eq ▸ (H.table table).size
  have ht : H.tableOf z = some table := by simp [Heap.tableOf, hz]
  unfold ReadsTree
  rw [within_table ht, variantZval, nodeZval, listZval, if_pos hlen, Option.map_map]
  exact (Decided.mapM h).map fun _ hvs ↦ .list hz hlist hvs

/-- A member of an object is read as its value is. -/
theorem readsTree_member {e : Key × Cells.Zval} {node : Node} (h : ReadsTree B H levels e.2 node) :
    Decided (H.Within levels e.2)
      (fun m ↦ ∃ v, m = .entry (.string (keyBytes e.1)) v ∧ Tagged B H e.2 v)
      ((variantZval B levels (some node)).map (Zval.entry (.string (keyBytes e.1)))) :=
  h.map fun v hv ↦ ⟨v, rfl, hv⟩

theorem zip_forall₂ {α β γ : Type} {R : α → γ → Prop} {f : α → β} {l : List α} {m : List γ}
    (h : List.Forall₂ R l m) : List.Forall₂ (fun a p ↦ p.1 = f a ∧ R a p.2) l ((l.map f).zip m) := by
  induction h with
  | nil => exact .nil
  | cons hab _ ih => exact .cons ⟨rfl, hab⟩ ih

/-- What the members were read as, value by value. -/
theorem members_of_forall₂ {entries : List (Key × Cells.Zval)} {ms : List Zval}
    (h : List.Forall₂ (fun e m ↦ ∃ v, m = .entry (.string (keyBytes e.1)) v ∧ Tagged B H e.2 v) entries ms) :
    ∃ vs, List.Forall₂ (fun e v ↦ Tagged B H e.2 v) entries vs ∧
      ms = ((entries.map fun e ↦ keyBytes e.1).zip vs).map fun m ↦ Zval.entry (.string m.1) m.2 := by
  induction h with
  | nil => exact ⟨[], .nil, rfl⟩
  | cons hm _ ih =>
    obtain ⟨v, rfl, hv⟩ := hm
    obtain ⟨vs, hvs, rfl⟩ := ih
    exact ⟨v :: vs, .cons hv hvs, rfl⟩

theorem readsTree_object
    (hz : (H.deref z = .array table ∧ ¬ (H.table table).isList) ∨ H.deref z = .object "stdClass" table)
    (h : List.Forall₂ (fun e node ↦ ReadsTree B H levels e.2 node) (H.table table).entries nodes) :
    ReadsTree B H (levels + 1) z
      (.object (sortMembers (((H.table table).entries.map fun e ↦ keyBytes e.1).zip nodes))) := by
  have hlen : (sortMembers (((H.table table).entries.map fun e ↦ keyBytes e.1).zip nodes)).length ≤
      htMaxSize := by
    rw [length_sortMembers, List.length_zip, List.length_map, ← h.length_eq, Nat.min_self]
    exact (H.table table).size
  have ht : H.tableOf z = some table := by
    rcases hz with ⟨hz, -⟩ | hz <;> simp [Heap.tableOf, hz]
  have hmembers : List.Forall₂ (fun e (m : List Byte × Node) ↦ Decided (H.Within levels e.2)
      (fun w ↦ ∃ v, w = .entry (.string (keyBytes e.1)) v ∧ Tagged B H e.2 v)
      ((variantZval B levels (some m.2)).map (Zval.entry (.string m.1)))) (H.table table).entries
      (((H.table table).entries.map fun e ↦ keyBytes e.1).zip nodes) :=
    (zip_forall₂ h).imp fun e m hm ↦ by
      rw [hm.1]
      exact readsTree_member hm.2
  unfold ReadsTree
  rw [within_table ht, variantZval, nodeZval, listZval, if_pos hlen, Option.map_map]
  refine ((Decided.mapM hmembers).mapM_perm (List.perm_insertionSort _ _)).map ?_
  rintro ms ⟨ms', hperm, hms⟩
  obtain ⟨vs, hvs, rfl⟩ := members_of_forall₂ hms
  obtain ⟨members, rfl, hmembers⟩ := exists_map_of_perm hperm
  exact .object hz hvs hmembers

theorem within_leaf (hz : H.tableOf z = none) : H.Within (levels + 1) z := by
  intro y hy
  unfold Heap.children at hy
  rw [hz] at hy
  cases hy

/-- A value without children is read at any level. -/
theorem readsTree_leaf {node : Node} (hz : H.tableOf z = none)
    {v : Zval} (hv : variantZval B (levels + 1) (some node) = some v) (htagged : Tagged B H z v) :
    ReadsTree B H (levels + 1) z node := by
  unfold ReadsTree
  rw [hv]
  exact Decided.found (within_leaf hz) htagged

/-- The tree that a PHP value unfolds into is read where it has no more levels
than are left, by induction on them. -/
theorem readsTree_unfold {node : Node} (hnode : H.unfold engine n z = some node) :
    ReadsTree B H levels z node := by
  induction levels generalizing n z node with
  | zero => exact ⟨fun h ↦ h.elim, fun _ ↦ rfl⟩
  | succ levels ih =>
    cases n with
    | zero => cases hnode
    | succ n =>
      have hread : ∀ y node, H.unfold engine n y = some node → ReadsTree B H levels y node :=
        fun y node h ↦ ih h
      rw [Heap.unfold] at hnode
      cases hz : H.deref z with
      | array table =>
        simp only [hz, Table.node] at hnode
        split_ifs at hnode with hlist
        · obtain ⟨nodes, hnodes, rfl⟩ := Option.map_eq_some_iff.mp hnode
          exact readsTree_list hz hlist (entries_forall₂ hnodes hread)
        · unfold Table.objectNode at hnode
          split_ifs at hnode
          obtain ⟨nodes, hnodes, rfl⟩ := Option.map_eq_some_iff.mp hnode
          exact readsTree_object (.inl ⟨hz, hlist⟩) (entries_forall₂ hnodes hread)
      | object className table =>
        simp only [hz, Table.objectNode] at hnode
        split_ifs at hnode with hclass
        obtain ⟨nodes, hnodes, rfl⟩ := Option.map_eq_some_iff.mp hnode
        exact readsTree_object (.inr (hclass ▸ hz)) (entries_forall₂ hnodes hread)
      | null =>
        simp only [hz, leafNode, Option.some.injEq] at hnode
        subst hnode
        exact readsTree_leaf (by simp [Heap.tableOf, hz]) rfl (.null hz)
      | bool b =>
        simp only [hz, leafNode, Option.some.injEq] at hnode
        subst hnode
        exact readsTree_leaf (by simp [Heap.tableOf, hz]) rfl (.bool hz)
      | long l =>
        simp only [hz, leafNode, Option.some.injEq] at hnode
        subst hnode
        exact readsTree_leaf (by simp [Heap.tableOf, hz]) rfl (.long hz)
      | double bits =>
        simp only [hz, leafNode, Option.some.injEq] at hnode
        subst hnode
        exact readsTree_leaf (by simp [Heap.tableOf, hz]) rfl (.double hz)
      | string s =>
        simp only [hz, leafNode] at hnode
        split_ifs at hnode
        obtain rfl := Option.some.inj hnode
        exact readsTree_leaf (by simp [Heap.tableOf, hz]) rfl (.string hz)
      | resource => simp [hz, leafNode] at hnode
      | reference c => simp [hz, leafNode] at hnode

end Trees

section Columns

open Cells (ColumnType buildVariant World)

/-- What reading a VARIANT gives for a PHP value: an SQL NULL for a null that
stands for the whole VARIANT. -/
def Returned (B : Bridge) (H : Heap) (z : Cells.Zval) (v : Zval) : Prop :=
  if H.deref z = .null then v = .null else Tagged B H z v

def asObject : Zval → Zval
  | .array entries => .object entries
  | v => v

variable {w w' : World} {M : ℕ → Cells.Memory} {hs : List Cells.Handle} {ss : List Cells.StringHandle}
  {argpos depth row rowCount : ℕ} {h : Cells.Handle} {vec : Vector}

theorem nativeZval_null (hnull : NullAt vec row) (hrow : row < rowCount) :
    nativeZval B (n + 1) vec row rowCount = some .null := by
  obtain ⟨l, hl, hfalse⟩ := hnull
  rw [nativeZval, if_neg (Nat.not_le_of_lt hrow), if_pos]
  rw [hl]
  simp [hfalse]

theorem nullAt_lt (hsized : vec.Sized rowCount) (hnull : NullAt vec row) : row < rowCount := by
  obtain ⟨l, hl, hfalse⟩ := hnull
  obtain ⟨hrow, -⟩ := List.getElem?_eq_some_iff.mp hfalse
  rwa [hsized.validity l hl] at hrow

theorem unfold_null {node : Node} (hnode : H.unfold engine n z = some node) :
    node = .null ↔ H.deref z = .null := by
  cases n with
  | zero => cases hnode
  | succ n =>
    rw [Heap.unfold] at hnode
    cases hz : H.deref z with
    | array table =>
      simp only [hz, Table.node, Table.objectNode] at hnode
      split_ifs at hnode
      · obtain ⟨nodes, -, rfl⟩ := Option.map_eq_some_iff.mp hnode
        exact iff_of_false (by simp) (by simp)
      · obtain ⟨nodes, -, rfl⟩ := Option.map_eq_some_iff.mp hnode
        exact iff_of_false (by simp) (by simp)
    | object className table =>
      simp only [hz, Table.objectNode] at hnode
      split_ifs at hnode
      obtain ⟨nodes, -, rfl⟩ := Option.map_eq_some_iff.mp hnode
      exact iff_of_false (by simp) (by simp)
    | null =>
      simp only [hz, leafNode, Option.some.injEq] at hnode
      exact iff_of_true hnode.symm rfl
    | bool | long | double =>
      simp only [hz, leafNode, Option.some.injEq] at hnode
      subst hnode
      exact iff_of_false (by simp) (by simp)
    | string s =>
      simp only [hz, leafNode] at hnode
      split_ifs at hnode
      obtain rfl := Option.some.inj hnode
      exact iff_of_false (by simp) (by simp)
    | resource => simp [hz, leafNode] at hnode
    | reference c => simp [hz, leafNode] at hnode

/-- Where a value that is not null is stored. -/
theorem stored_node {node : Node} (hne : node ≠ .null) (hstored : Stored (.leaf .variant) vec row node.native) :
    ∃ validity data, vec = .leaf .variant validity data ∧ vec.ValidAt row ∧
      data[row]? = some (.variant (some node)) := by
  obtain ⟨validity, data, hvec, hv⟩ := hstored
  refine ⟨validity, data, hvec, ?_⟩
  cases node with
  | null => exact absurd rfl hne
  | scalar x => exact hv
  | array items => exact hv.2
  | object members => exact hv.2

theorem nativeZval_variant {node : Node} (hne : node ≠ .null) (hsized : vec.Sized rowCount)
    (hstored : Stored (.leaf .variant) vec row node.native) :
    nativeZval B (n + 1) vec row rowCount = variantZval B n (some node) := by
  obtain ⟨validity, data, rfl, hvalid, hdata⟩ := stored_node hne hstored
  obtain ⟨hrow, -⟩ := List.getElem?_eq_some_iff.mp hdata
  rw [hsized.2] at hrow
  rw [nativeZval, if_neg (Nat.not_le_of_lt hrow), not_validAt_false hvalid, if_neg (by decide), branchZval,
    hdata]
  rfl

theorem nativeZval_readback {node : Node} (hnode : H.unfold engine levels z = some node)
    (hsized : vec.Sized rowCount) (hstored : Stored (.leaf .variant) vec row node.native) :
    ((H.deref z = .null ∨ H.Within n z) → ∃ v, nativeZval B (n + 1) vec row rowCount = some v ∧
      Returned B H z v) ∧
    (¬ (H.deref z = .null ∨ H.Within n z) → nativeZval B (n + 1) vec row rowCount = none) := by
  unfold Returned
  by_cases hz : H.deref z = .null
  · obtain rfl := (unfold_null hnode).mpr hz
    obtain ⟨validity, data, hvec, hnull⟩ := hstored
    simp only [if_pos hz]
    refine ⟨fun _ ↦ ⟨.null, nativeZval_null hnull (nullAt_lt hsized hnull), rfl⟩, fun h ↦ absurd (.inl hz) h⟩
  · have hne : node ≠ .null := fun h ↦ hz ((unfold_null hnode).mp h)
    simp only [if_neg hz, or_iff_right hz, nativeZval_variant hne hsized hstored]
    exact readsTree_unfold hnode

theorem taggedColumn_tagged (type : List Byte) (v : Zval) :
    taggedColumn (.tagged type v) = some (asObject (.tagged type v)) := by
  have htype : findZval (.tagged type v) (ascii "type") = some (.string type) := rfl
  have hvalue : findZval (.tagged type v) (ascii "value") = some v := rfl
  unfold taggedColumn
  rw [htype, hvalue]
  rfl

/-- A column gives a VARIANT as an object. -/
theorem columnZval_returned {validity : Option (List Bool)} {data : List Datum} {v : Zval}
    (hv : Returned B H z v) : columnZval B (.leaf .variant validity data) v = some (asObject v) := by
  unfold Returned at hv
  split_ifs at hv
  · rw [hv]
    rfl
  · cases hv <;> exact taggedColumn_tagged _ _

/-- A VARIANT that has been stored is read back, at the depth where it stands,
if and only if it is null or has no more levels than are left. -/
theorem variant_readback (hw : w.Owes M hs ss)
    (hbuild : buildVariant engine H z argpos depth w = (.ok h, w'))
    (hstored : Stored (.leaf .variant) vec row h.2) (hsized : vec.Sized rowCount)
    (hcount : rowCount < 0x10000000000000000) :
    ((∃ v, fetchAt B depth vec row rowCount = some v ∧ Returned B H z v) ↔
      depth < valueDepth ∧ (H.deref z = .null ∨ H.Within (valueDepth - 1 - depth) z)) ∧
    (depth = 0 → ((∃ v, fetchColumn B vec row rowCount = some (asObject v) ∧ Returned B H z v) ↔
      H.deref z = .null ∨ H.Within (valueDepth - 1) z)) := by
  obtain ⟨node, hnode, hh⟩ := Cells.buildVariant_unfold hw hbuild
  rw [hh] at hstored
  have hleaf : ∃ validity data, vec = .leaf .variant validity data := by
    obtain ⟨validity, data, hvec, -⟩ := hstored
    exact ⟨validity, data, hvec⟩
  have hplain : vec.Plain := by
    obtain ⟨validity, data, rfl⟩ := hleaf
    exact nofun
  have hread (n : ℕ) := nativeZval_readback (B := B) (n := n) hnode hsized hstored
  constructor
  · rw [fetchAt_eq hplain hsized hcount]
    by_cases hd : depth < valueDepth
    · have hlevels : valueDepth - depth = valueDepth - 1 - depth + 1 := by omega
      rw [hlevels, and_iff_right hd]
      refine ⟨fun ⟨v, hv, _⟩ ↦ ?_, (hread _).1⟩
      by_contra hdeep
      rw [(hread _).2 hdeep] at hv
      cases hv
    · have hlevels : valueDepth - depth = 0 := by omega
      rw [hlevels]
      exact iff_of_false (fun ⟨v, hv, _⟩ ↦ by cases hv) fun h ↦ hd h.1
  · rintro -
    have hcolumn : fetchColumn B vec row rowCount =
        (nativeZval B (valueDepth - 1 + 1) vec row rowCount).bind (columnZval B vec) :=
      fetchColumn_eq hplain hsized hcount
    rw [hcolumn]
    constructor
    · rintro ⟨v, hv, -⟩
      by_contra hdeep
      rw [(hread _).2 hdeep] at hv
      cases hv
    · intro hwithin
      obtain ⟨v, hv, hreturned⟩ := (hread _).1 hwithin
      obtain ⟨validity, data, rfl⟩ := hleaf
      refine ⟨v, ?_, hreturned⟩
      rw [hv]
      exact columnZval_returned hreturned

theorem native_of_table {node : Node} {table : ℕ} (hz : H.deref z = .array table)
    (hnode : H.unfold engine n z = some node) : node.native = .variant node := by
  cases n with
  | zero => cases hnode
  | succ n =>
    simp only [Heap.unfold, hz, Table.node, Table.objectNode] at hnode
    split_ifs at hnode <;> obtain ⟨nodes, -, rfl⟩ := Option.map_eq_some_iff.mp hnode <;> rfl

def variantColumn (node : Node) : Vector := .leaf .variant none [.variant (some node)]

theorem variantColumn_stored {node : Node} {v : Cells.Native} (hv : v = .variant node) :
    Stored (.leaf .variant) (variantColumn node) 0 v :=
  hv ▸ ⟨none, _, rfl, rfl, nofun, rfl⟩

theorem variantColumn_sized {node : Node} : (variantColumn node).Sized 1 := ⟨nofun, rfl⟩

theorem variant_readback_sharingHeap : ∃ h w' node v,
    buildVariant Cells.plainEngine Cells.sharingHeap (.array 0) 1 0 .empty = (.ok h, w') ∧
      h.2 = .variant node ∧ fetchColumn plainBridge (variantColumn node) 0 1 = some (asObject v) ∧
      Tagged plainBridge Cells.sharingHeap (.array 0) v := by
  have hunfold : (Cells.sharingHeap.unfold Cells.plainEngine 3 (.array 0)).isSome := by decide
  obtain ⟨hwithin, hsupported⟩ := Heap.isSome_unfold.mp hunfold
  have hsome : (Cells.sharingHeap.unfold Cells.plainEngine 129 (.array 0)).isSome :=
    Heap.isSome_unfold.mpr ⟨hwithin.mono (by decide), hsupported⟩
  obtain ⟨h, w', hbuild⟩ : ∃ h w',
      buildVariant Cells.plainEngine Cells.sharingHeap (.array 0) 1 0 .empty = (.ok h, w') :=
    Cells.exists_buildVariant Cells.World.owes_empty (fun _ ↦ rfl) hsome
  obtain ⟨node, hnode, hh⟩ := Cells.buildVariant_unfold Cells.World.owes_empty hbuild
  rw [native_of_table rfl hnode] at hh
  have hread := variant_readback (B := plainBridge) Cells.World.owes_empty hbuild
    (variantColumn_stored hh) variantColumn_sized (by decide)
  obtain ⟨v, hv, hreturned⟩ := (hread.2 rfl).mpr (.inr (hwithin.mono (by decide)))
  exact ⟨h, w', node, v, hbuild, hh, hv, hreturned⟩

/-- The appender takes 127 arrays around an integer, whose VARIANT cannot be read. -/
theorem variant_lost : ∃ h w' node,
    buildVariant Cells.plainEngine (nestHeap 127) (.array 0) 1 0 .empty = (.ok h, w') ∧
      h.2 = .variant node ∧ fetchColumn plainBridge (variantColumn node) 0 1 = none := by
  have hsome : ((nestHeap 127).unfold Cells.plainEngine 129 (.array 0)).isSome :=
    nestHeap_unfold (by decide) (by decide)
  obtain ⟨h, w', hbuild⟩ : ∃ h w',
      buildVariant Cells.plainEngine (nestHeap 127) (.array 0) 1 0 .empty = (.ok h, w') :=
    Cells.exists_buildVariant Cells.World.owes_empty (fun _ ↦ rfl) hsome
  obtain ⟨node, hnode, hh⟩ := Cells.buildVariant_unfold Cells.World.owes_empty hbuild
  have hnative := native_of_table rfl hnode
  refine ⟨h, w', node, hbuild, hh.trans hnative, ?_⟩
  have hdeep : ¬ (nestHeap 127).Within 127 (.array 0) := by
    rw [nestHeap_within (by decide)]
    decide
  have hnone : nativeZval plainBridge 128 (variantColumn node) 0 1 = none :=
    (nativeZval_readback hnode variantColumn_sized (variantColumn_stored hnative)).2
      (not_or.mpr ⟨nofun, hdeep⟩)
  have hplain : (variantColumn node).Plain := nofun
  rw [fetchColumn_eq hplain variantColumn_sized (by decide)]
  exact congrArg (Option.bind · _) hnone

end Columns

end PdoDuckdb.Structures
