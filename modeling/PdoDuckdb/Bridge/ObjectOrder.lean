import PdoDuckdb.Bridge.VariantTrees
import PdoDuckdb.Library.Loops
import Mathlib.Data.List.Pairwise

namespace PdoDuckdb.Bridge

open Library.Loops

/-- The row that the engine's builder has made, as `VariantVectorData` writes to it. The
children of the row are those of the whole vector from an offset on. -/
structure Target (σ : Type) where
  isNull : Bool
  valuesLength : ℕ
  node : ℕ → StoredNode σ
  childrenOffset : ℕ
  childrenLength : ℕ
  entry : ℕ → ChildEntry
  key : ℕ → List Byte

section Restoring

variable {σ : Type}

/-- `result.GetValue(0)`, which is a copy. -/
def Target.value (target : Target σ) : Storage σ where
  isNull := target.isNull
  valuesLength := target.valuesLength
  node := target.node
  childrenLength := target.childrenLength
  entry x := target.entry (target.childrenOffset + x)
  key := target.key

def Target.write (target : Target σ) (slot keysIndex valuesIndex : ℕ) : Target σ :=
  { target with entry := Function.update target.entry (target.childrenOffset + slot) ⟨keysIndex, true, valuesIndex⟩ }

/-- The members of a rebuilt object with their places, as a `std::map` that keeps the first of
a name. -/
def membersOf (rebuilt : Storage σ) (targetChildren : NestedData) : List (List Byte × ℕ) :=
  (List.range targetChildren.childCount).map fun i ↦ (rebuilt.keyAt (targetChildren.slot i), targetChildren.slot i)

/-- One turn of the loop over the children of a node: the row, and the pairs that are pushed. -/
def restoreChild (original rebuilt : Storage σ) (type : Kind) (sourceChildren targetChildren : NestedData)
    (members : List (List Byte × ℕ)) (s : Target σ × List (ℕ × ℕ)) (i : ℕ) :
    Except String (Target σ × List (ℕ × ℕ)) :=
  let sourceSlot := sourceChildren.slot i
  let targetSlot := targetChildren.slot i
  if type = .object then
    match members.find? (·.1 = original.keyAt sourceSlot) with
    | none => .error "Geometry conversion changed a VARIANT object key"
    | some (_, fromSlot) =>
      .ok (s.1.write targetSlot (rebuilt.entry fromSlot).keysIndex (rebuilt.entry fromSlot).valuesIndex,
        s.2 ++ [((original.entry sourceSlot).valuesIndex, (rebuilt.entry fromSlot).valuesIndex)])
  else .ok (s.1, s.2 ++ [((original.entry sourceSlot).valuesIndex, (rebuilt.entry targetSlot).valuesIndex)])

def restoreNode (original rebuilt : Storage σ) (before after : ℕ) (target : Target σ) :
    Except String (Target σ × List (ℕ × ℕ)) :=
  let type := original.kind before
  if type ≠ .object ∧ type ≠ .array then .ok (target, [])
  else if rebuilt.kind after ≠ type then .error "Geometry conversion changed VARIANT container kind"
  else do
    let sourceChildren ← original.nested before
    let targetChildren ← rebuilt.nested after
    if sourceChildren.childCount ≠ targetChildren.childCount then
      .error "Geometry conversion changed VARIANT child count"
    else
      let members := if type = .object then membersOf rebuilt targetChildren else []
      (List.range sourceChildren.childCount).foldlM
        (restoreChild original rebuilt type sourceChildren targetChildren members) (target, [])

/-- The variables of the loop; the top of the stack is first. -/
structure Restore (σ : Type) where
  pending : List (ℕ × ℕ)
  target : Target σ
  thrown : Option String

def restoreTurn (original rebuilt : Storage σ) (s : Restore σ) : Option (List (ℕ × ℕ) × Restore σ) :=
  if s.thrown.isSome then none
  else
    match s.pending with
    | [] => none
    | indices :: rest =>
      match restoreNode original rebuilt indices.1 indices.2 s.target with
      | .error message => some ([indices], ⟨rest, s.target, some message⟩)
      | .ok (target, pushed) => some ([indices], ⟨pushed.reverse ++ rest, target, none⟩)

/-- `restore_object_order`, within a number of turns. -/
def restoreObjectOrder (original : Storage σ) (result : Target σ) (turns : ℕ) :
    Option (List (ℕ × ℕ) × Except String (Target σ)) :=
  match result.value.opened with
  | .error message => some ([], .error message)
  | .ok rebuilt =>
    (loop (restoreTurn original rebuilt) turns ⟨[(0, 0)], result, none⟩).map fun r ↦
      (r.1, match r.2.thrown with
        | some message => .error message
        | none => .ok r.2.target)

end Restoring

/-- A tree whose scalars are converted and whose objects have the order of the builder. -/
inductive Rebuilt {σ : Type} (f : σ → σ) : Tree σ → Tree σ → Prop
  | null : Rebuilt f .null .null
  | scalar (v : σ) : Rebuilt f (.scalar v) (.scalar (f v))
  | array {size : ℕ} {item item' : Fin size → Tree σ} :
      (∀ k, Rebuilt f (item k) (item' k)) → Rebuilt f (.array size item) (.array size item')
  | object {size : ℕ} {key : Fin size → List Byte} {member member' : Fin size → Tree σ} (order : Fin size ≃ Fin size) :
      (∀ k, Rebuilt f (member k) (member' (order k))) →
      Rebuilt f (.object size key member) (.object size (key ∘ order.symm) member')

/-- A rebuilt tree of converted scalars is that of the tree. -/
theorem Rebuilt.of_map {σ : Type} {f : σ → σ} {t t' : Tree σ} (h : Rebuilt id (t.map f) t') : Rebuilt f t t' := by
  induction t generalizing t' with
  | null =>
    cases h
    exact .null
  | scalar v =>
    cases h
    exact .scalar v
  | array size item ih =>
    cases h with
    | array h => exact .array fun k ↦ ih k (h k)
  | object size key member ih =>
    cases h with
    | object order h => exact .object order fun k ↦ ih k (h k)

section Entries

variable {σ : Type} {s s' v rebuilt original : Storage σ} {target : Target σ} {l m : List ℕ}

structure Storage.Over (s s' : Storage σ) : Prop where
  isNull : s.isNull = s'.isNull
  valuesLength : s.valuesLength = s'.valuesLength
  node : s.node = s'.node
  childrenLength : s.childrenLength = s'.childrenLength
  key : s.key = s'.key

def AgreeOn (l : List ℕ) (s s' : Storage σ) : Prop := ∀ x ∈ l, s.entry x = s'.entry x

def AgreeOff (l : List ℕ) (s s' : Storage σ) : Prop := ∀ x ∉ l, s.entry x = s'.entry x

theorem Storage.Over.refl (s : Storage σ) : s.Over s := ⟨rfl, rfl, rfl, rfl, rfl⟩

theorem Storage.Over.trans {s'' : Storage σ} (h : s.Over s') (h' : s'.Over s'') : s.Over s'' :=
  ⟨h.isNull.trans h'.isNull, h.valuesLength.trans h'.valuesLength, h.node.trans h'.node,
    h.childrenLength.trans h'.childrenLength, h.key.trans h'.key⟩

theorem Storage.Over.slot (h : s.Over s') (i k : ℕ) : s.slot i k = s'.slot i k := by
  unfold Storage.slot Storage.nestedData
  rw [h.node]

theorem entry_write (target : Target σ) (slot keysIndex valuesIndex : ℕ) :
    (target.write slot keysIndex valuesIndex).value.entry =
      Function.update target.value.entry slot ⟨keysIndex, true, valuesIndex⟩ :=
  Function.update_comp_eq_of_injective _ (fun _ _ h ↦ Nat.add_left_cancel h) _ _

theorem over_value_write (target : Target σ) (slot keysIndex valuesIndex : ℕ) :
    (target.write slot keysIndex valuesIndex).value.Over target.value := ⟨rfl, rfl, rfl, rfl, rfl⟩

def writeAll (writes : List (ℕ × ℕ × ℕ)) (target : Target σ) : Target σ :=
  writes.foldl (fun target w ↦ target.write w.1 w.2.1 w.2.2) target

theorem writeAll_over (writes : List (ℕ × ℕ × ℕ)) (target : Target σ) :
    (writeAll writes target).value.Over target.value := by
  induction writes generalizing target with
  | nil => exact .refl _
  | cons w writes ih => exact (ih _).trans (over_value_write target w.1 w.2.1 w.2.2)

theorem writeAll_off (writes : List (ℕ × ℕ × ℕ)) (target : Target σ) :
    AgreeOff (writes.map Prod.fst) target.value (writeAll writes target).value := by
  induction writes generalizing target with
  | nil => exact fun _ _ ↦ rfl
  | cons w writes ih =>
    intro x hx
    rw [List.map_cons, List.mem_cons, not_or] at hx
    obtain ⟨hne, hx⟩ := hx
    refine Eq.trans ?_ (ih (target.write w.1 w.2.1 w.2.2) x hx)
    rw [entry_write, Function.update_of_ne hne]

theorem writeAll_on {writes : List (ℕ × ℕ × ℕ)} (hnodup : (writes.map Prod.fst).Nodup) (target : Target σ) :
    ∀ w ∈ writes, (writeAll writes target).value.entry w.1 = ⟨w.2.1, true, w.2.2⟩ := by
  induction writes generalizing target with
  | nil => exact fun w hw ↦ absurd hw List.not_mem_nil
  | cons w writes ih =>
    obtain ⟨hw, hnodup⟩ := List.nodup_cons.mp hnodup
    refine List.forall_mem_cons.mpr ⟨?_, ih hnodup _⟩
    have hoff := writeAll_off writes (target.write w.1 w.2.1 w.2.2) w.1 hw
    rw [entry_write, Function.update_self] at hoff
    exact hoff.symm

end Entries

section Nodes

variable {σ : Type} {f : σ → σ} {original rebuilt s v : Storage σ} {target : Target σ} {t t' : Tree σ} {i j : ℕ}

def Tree.kind : Tree σ → Kind
  | .null => .null
  | .scalar _ => .scalar
  | .array _ _ => .array
  | .object _ _ _ => .object

namespace Storage.Head

theorem kind (h : s.Head i t) : s.kind i = t.kind := by
  obtain ⟨hnull, -, -, -, h⟩ := h
  unfold Storage.kind
  rw [hnull, if_neg Bool.false_ne_true]
  cases hnode : s.node i <;> cases t <;> simp_all [Tree.kind]

theorem childCount (h : s.Head i t) : (s.nestedData i).childCount = t.size := by
  obtain ⟨-, -, -, -, h⟩ := h
  unfold nestedData
  cases hnode : s.node i <;> cases t <;> simp_all [Tree.size]

theorem nested (h : s.Head i t) (hkind : t.kind = .object ∨ t.kind = .array) :
    s.nested i = .ok (s.nestedData i) := by
  have hk := h.kind
  obtain ⟨-, -, hidx, hcount, -⟩ := h
  unfold Storage.nested
  rw [hk, if_neg, if_pos ⟨hidx, hcount⟩]
  rintro ⟨hobject, harray⟩
  exact hkind.elim hobject harray

end Storage.Head

/-- The loop over the children, when each turn is right. -/
theorem foldlM_restoreChild {type : Kind} {source after : NestedData} {members : List (List Byte × ℕ)} {n : ℕ}
    {step : Fin n → Target σ → Target σ} {pair : Fin n → ℕ × ℕ} (ks : List (Fin n)) (pushed : List (ℕ × ℕ))
    (h : ∀ k target pushed, restoreChild original rebuilt type source after members (target, pushed) k.1 =
      .ok (step k target, pushed ++ [pair k])) (target : Target σ) :
    (ks.map Fin.val).foldlM (restoreChild original rebuilt type source after members) (target, pushed) =
      .ok (ks.foldl (fun target k ↦ step k target) target, pushed ++ ks.map pair) := by
  induction ks generalizing target pushed with
  | nil => simp; rfl
  | cons k ks ih =>
    rw [List.map_cons, List.foldlM_cons, h]
    change (ks.map Fin.val).foldlM _ _ = _
    rw [ih, List.append_assoc]
    rfl

theorem restoreNode_leaf (ho : original.Head i t) (hkind : t.kind ≠ .object ∧ t.kind ≠ .array) :
    restoreNode original rebuilt i j target = .ok (target, []) := by
  unfold restoreNode
  dsimp only
  rw [ho.kind, if_pos hkind]

theorem restoreNode_container (ho : original.Head i t) (hr : rebuilt.Head j t')
    (hkind : t.kind = .object ∨ t.kind = .array) (hsame : t'.kind = t.kind) (hsize : t'.size = t.size) :
    restoreNode original rebuilt i j target =
      ((List.finRange t.size).map Fin.val).foldlM
        (restoreChild original rebuilt t.kind (original.nestedData i) (rebuilt.nestedData j)
          (if t.kind = .object then membersOf rebuilt (rebuilt.nestedData j) else [])) (target, []) := by
  have hcontainer : ¬ (t.kind ≠ .object ∧ t.kind ≠ .array) := fun h ↦ hkind.elim h.1 h.2
  unfold restoreNode
  dsimp only
  rw [ho.kind, if_neg hcontainer, hr.kind, if_neg (not_not_intro hsame), ho.nested hkind,
    hr.nested (by rwa [hsame])]
  dsimp only [Bind.bind, Except.bind]
  rw [ho.childCount, hr.childCount, hsize, if_neg (not_not_intro rfl), List.map_coe_finRange_eq_range]

theorem restoreNode_array {size : ℕ} {item item' : Fin size → Tree σ} (ho : original.Head i (.array size item))
    (hr : rebuilt.Head j (.array size item')) :
    restoreNode original rebuilt i j target =
      .ok (target, (List.finRange size).map fun k : Fin size ↦ (original.child i k, rebuilt.child j k)) := by
  have hturn (k : Fin size) (target : Target σ) (pushed : List (ℕ × ℕ)) :
      restoreChild original rebuilt .array (original.nestedData i) (rebuilt.nestedData j) [] (target, pushed) k =
        .ok (target, pushed ++ [(original.child i k, rebuilt.child j k)]) := rfl
  have hloop := foldlM_restoreChild (List.finRange size) [] hturn target
  have hfold : (List.finRange size).foldl (fun target _ ↦ target) target = target := List.foldl_fixed _
  rw [restoreNode_container ho hr (.inr rfl) rfl rfl, if_neg (by simp [Tree.kind])]
  refine hloop.trans ?_
  rw [hfold, List.nil_append]

/-- The one member with a name is found. -/
theorem find?_membersOf {size : ℕ} {key : Fin size → List Byte} {member : Fin size → Tree σ} (hkey : Function.Injective key)
    (hr : rebuilt.Head j (.object size key member)) (k : Fin size) :
    (membersOf rebuilt (rebuilt.nestedData j)).find? (·.1 = key k) = some (key k, rebuilt.slot j k) := by
  have hcount : (rebuilt.nestedData j).childCount = size := hr.childCount
  have hnames (l : Fin size) : rebuilt.keyAt (rebuilt.slot j l) = key l := by
    obtain ⟨-, -, -, -, h⟩ := hr
    cases hnode : rebuilt.node j with
    | object childCount childrenIdx =>
      rw [hnode] at h
      exact (h.2 l).2
    | null | scalar v | array childCount childrenIdx =>
      rw [hnode] at h
      exact h.elim
  have hmembers : membersOf rebuilt (rebuilt.nestedData j) =
      (List.finRange size).map fun l : Fin size ↦ (key l, rebuilt.slot j l) := by
    unfold membersOf
    rw [hcount, ← List.map_coe_finRange_eq_range, List.map_map]
    refine List.map_congr_left fun l _ ↦ ?_
    exact congrArg (fun name ↦ (name, rebuilt.slot j l)) (hnames l)
  rw [hmembers]
  cases hfind : ((List.finRange size).map fun l : Fin size ↦ (key l, rebuilt.slot j l)).find? (·.1 = key k) with
  | none =>
    have hno := List.find?_eq_none.mp hfind (key k, rebuilt.slot j k)
      (List.mem_map.mpr ⟨k, List.mem_finRange k, rfl⟩)
    exact absurd (decide_eq_true rfl) hno
  | some m =>
    obtain ⟨l, -, rfl⟩ := List.mem_map.mp (List.mem_of_find?_eq_some hfind)
    have hl : key l = key k := of_decide_eq_true (List.find?_some hfind :)
    rw [hkey hl]

/-- The writes to the children of an object: in the place of each the member that it had first. -/
def orderWrites {size : ℕ} (rebuilt : Storage σ) (j : ℕ) (order : Fin size ≃ Fin size) : List (ℕ × ℕ × ℕ) :=
  (List.finRange size).map fun k : Fin size ↦
    (rebuilt.slot j k, (rebuilt.entry (rebuilt.slot j (order k))).keysIndex, rebuilt.child j (order k))

theorem restoreNode_object {size : ℕ} {key : Fin size → List Byte} {member member' : Fin size → Tree σ}
    {order : Fin size ≃ Fin size} (hkey : Function.Injective key) (ho : original.Head i (.object size key member))
    (hr : rebuilt.Head j (.object size (key ∘ order.symm) member')) :
    restoreNode original rebuilt i j target =
      .ok (writeAll (orderWrites rebuilt j order) target,
        (List.finRange size).map fun k : Fin size ↦ (original.child i k, rebuilt.child j (order k))) := by
  have hname (k : Fin size) : original.keyAt (original.slot i k) = (key ∘ order.symm) (order k) := by
    rw [Function.comp_apply, order.symm_apply_apply]
    obtain ⟨-, -, -, -, h⟩ := ho
    cases hnode : original.node i with
    | object childCount childrenIdx =>
      rw [hnode] at h
      exact (h.2 k).2
    | null | scalar v | array childCount childrenIdx =>
      rw [hnode] at h
      exact h.elim
  have hturn (k : Fin size) (target : Target σ) (pushed : List (ℕ × ℕ)) :
      restoreChild original rebuilt .object (original.nestedData i) (rebuilt.nestedData j)
        (membersOf rebuilt (rebuilt.nestedData j)) (target, pushed) k =
        .ok (target.write (rebuilt.slot j k) (rebuilt.entry (rebuilt.slot j (order k))).keysIndex
          (rebuilt.child j (order k)), pushed ++ [(original.child i k, rebuilt.child j (order k))]) := by
    have hfind := find?_membersOf (hkey.comp order.symm.injective) hr (order k)
    rw [← hname k] at hfind
    unfold restoreChild
    dsimp only
    rw [if_pos rfl]
    change (match (membersOf rebuilt (rebuilt.nestedData j)).find? (·.1 = original.keyAt (original.slot i k)) with
      | none => _
      | some (_, _) => _) = _
    rw [hfind]
    rfl
  have hloop := foldlM_restoreChild (List.finRange size) [] hturn target
  have hkind : (Tree.object size key member).kind = .object := rfl
  rw [restoreNode_container ho hr (.inl rfl) rfl rfl, if_pos hkind]
  refine hloop.trans ?_
  rw [List.nil_append, orderWrites, writeAll, List.foldl_map]

end Nodes

section Jobs

variable {σ : Type} {f : σ → σ} {original rebuilt v : Storage σ} {t t' : Tree σ} {i j : ℕ}

/-- The work from a pair of nodes on: the places that are its own, the nodes that it visits,
and what holds of the row after it. -/
structure Job (σ : Type) where
  indices : ℕ × ℕ
  slots : List ℕ
  visits : List ℕ
  goal : Storage σ → Prop

def Job.Done (original rebuilt : Storage σ) (job : Job σ) : Prop :=
  ∀ rest (target : Target σ), target.value.Over rebuilt → AgreeOn job.slots rebuilt target.value →
    ∃ target' log, Turns (restoreTurn original rebuilt) job.visits.length ⟨job.indices :: rest, target, none⟩ log
        ⟨rest, target', none⟩ ∧
      log.map Prod.fst = job.visits ∧ target'.value.Over rebuilt ∧ AgreeOff job.slots target.value target'.value ∧
      ∀ v : Storage σ, v.Over rebuilt → AgreeOn job.slots v target'.value → job.goal v

theorem AgreeOn.off {l m : List ℕ} {s s' s'' : Storage σ} (h : AgreeOn l s s') (hoff : AgreeOff m s' s'')
    (hdisjoint : l.Disjoint m) : AgreeOn l s s'' :=
  fun x hx ↦ (h x hx).trans (hoff x (hdisjoint hx))

/-- Works with places of their own are done one after the other. -/
theorem jobs_done {jobs : List (Job σ)} (hdone : ∀ job ∈ jobs, job.Done original rebuilt)
    (hapart : jobs.Pairwise fun a b ↦ a.slots.Disjoint b.slots) (rest : List (ℕ × ℕ)) (target : Target σ)
    (hover : target.value.Over rebuilt) (hagree : ∀ job ∈ jobs, AgreeOn job.slots rebuilt target.value) :
    ∃ target' log, Turns (restoreTurn original rebuilt) (jobs.flatMap Job.visits).length
        ⟨jobs.map Job.indices ++ rest, target, none⟩ log ⟨rest, target', none⟩ ∧
      log.map Prod.fst = jobs.flatMap Job.visits ∧ target'.value.Over rebuilt ∧
      AgreeOff (jobs.flatMap Job.slots) target.value target'.value ∧
      ∀ v : Storage σ, v.Over rebuilt → AgreeOn (jobs.flatMap Job.slots) v target'.value → ∀ job ∈ jobs, job.goal v := by
  induction jobs generalizing target with
  | nil => exact ⟨target, [], .zero _, rfl, hover, fun _ _ ↦ rfl, fun _ _ _ job hjob ↦ absurd hjob List.not_mem_nil⟩
  | cons job jobs ih =>
    obtain ⟨hjob, hjobs⟩ := List.forall_mem_cons.mp hdone
    obtain ⟨hfirst, hothers⟩ := List.forall_mem_cons.mp hagree
    obtain ⟨hdisjoint, hapart⟩ := List.pairwise_cons.mp hapart
    obtain ⟨target₁, log₁, hturns₁, hlog₁, hover₁, hoff₁, hgoal₁⟩ := hjob (jobs.map Job.indices ++ rest) target hover hfirst
    have hagree₁ : ∀ job ∈ jobs, AgreeOn job.slots rebuilt target₁.value := fun other hother ↦
      (hothers other hother).off hoff₁ fun _ hx hin ↦ hdisjoint other hother hin hx
    obtain ⟨target₂, log₂, hturns₂, hlog₂, hover₂, hoff₂, hgoal₂⟩ := ih hjobs hapart target₁ hover₁ hagree₁
    refine ⟨target₂, log₁ ++ log₂, ?_, ?_, hover₂, fun x hx ↦ ?_, fun v hv hon ↦ ?_⟩
    · rw [List.flatMap_cons, List.length_append]
      exact hturns₁.trans hturns₂
    · rw [List.map_append, hlog₁, hlog₂, List.flatMap_cons]
    · rw [List.flatMap_cons, List.mem_append, not_or] at hx
      exact (hoff₁ x hx.1).trans (hoff₂ x hx.2)
    · rw [List.flatMap_cons] at hon
      refine List.forall_mem_cons.mpr ⟨hgoal₁ v hv fun x hx ↦ ?_, hgoal₂ v hv fun x hx ↦ hon x (List.mem_append_right _ hx)⟩
      have hout : x ∉ jobs.flatMap Job.slots := by
        intro hin
        obtain ⟨other, hother, hin⟩ := List.mem_flatMap.mp hin
        exact hdisjoint other hother hx hin
      exact (hon x (List.mem_append_left _ hx)).trans (hoff₂ x hout).symm

def treeJob (f : σ → σ) (original rebuilt : Storage σ) (t t' : Tree σ) (i j : ℕ) : Job σ where
  indices := (i, j)
  slots := rebuilt.slots t' j
  visits := t.paths.map (original.indexAt i)
  goal v := v.Reads j (t.map f)

theorem done_leaf (ho : original.Head i t) (hkind : t.kind ≠ .object ∧ t.kind ≠ .array) (hsize : t.size = 0)
    (hgoal : ∀ v : Storage σ, v.Over rebuilt → v.Reads j (t.map f)) :
    (treeJob f original rebuilt t t' i j).Done original rebuilt := by
  intro rest target hover _
  have hpaths : t.paths = [[]] := by
    cases t with
    | null | scalar v => rfl
    | array size item => exact absurd rfl hkind.2
    | object size key member => exact absurd rfl hkind.1
  have hturn : restoreTurn original rebuilt ⟨(i, j) :: rest, target, none⟩ = some ([(i, j)], ⟨rest, target, none⟩) := by
    rw [restoreTurn, if_neg (by simp)]
    dsimp only
    rw [restoreNode_leaf ho hkind]
    rfl
  refine ⟨target, [(i, j)], ?_, ?_, hover, fun _ _ ↦ rfl, fun v hv _ ↦ hgoal v hv⟩
  · rw [treeJob, hpaths]
    exact Turns.one hturn
  · rw [treeJob, hpaths]
    rfl

/-- The work from a container on, when that of its children gets done. -/
theorem done_container (order : Fin t.size ≃ Fin t'.size) (write : Target σ → Target σ)
    (hnode : ∀ target, restoreNode original rebuilt i j target =
      .ok (write target, (List.finRange t.size).map fun k : Fin t.size ↦ (original.child i k, rebuilt.child j (order k))))
    (hover : ∀ target : Target σ, (write target).value.Over target.value)
    (hoff : ∀ target, AgreeOff ((List.finRange t'.size).map fun k : Fin t'.size ↦ rebuilt.slot j k) target.value (write target).value)
    (hgoal : ∀ (v : Storage σ) (target : Target σ), v.Over rebuilt →
      AgreeOn ((List.finRange t'.size).map fun k : Fin t'.size ↦ rebuilt.slot j k) rebuilt target.value →
      AgreeOn ((List.finRange t'.size).map fun k : Fin t'.size ↦ rebuilt.slot j k) v (write target).value →
      (∀ k, v.Reads (rebuilt.child j (order k)) ((t.child k).map f)) → v.Reads j (t.map f))
    (hnodup : (rebuilt.slots t' j).Nodup)
    (hchildren : ∀ k, (treeJob f original rebuilt (t.child k) (t'.child (order k)) (original.child i k)
      (rebuilt.child j (order k))).Done original rebuilt) :
    (treeJob f original rebuilt t t' i j).Done original rebuilt := by
  intro rest target hrebuilt hagree
  have hslots : rebuilt.slots t' j = _ := rebuilt.slots_eq t' j
  change AgreeOn (rebuilt.slots t' j) _ _ at hagree
  rw [hslots] at hnodup hagree
  obtain ⟨-, hbelow, hown⟩ := List.nodup_append'.mp hnodup
  obtain ⟨-, hpairwise⟩ := List.nodup_flatMap.mp hbelow
  have hin (k : Fin t'.size) : ∀ x ∈ rebuilt.slots (t'.child k) (rebuilt.child j k), x ∈
      (List.finRange t'.size).flatMap fun k ↦ rebuilt.slots (t'.child k) (rebuilt.child j k) :=
    fun x hx ↦ List.mem_flatMap.mpr ⟨k, List.mem_finRange k, hx⟩
  have hdisjoint (k l : Fin t'.size) (hne : k ≠ l) : (rebuilt.slots (t'.child k) (rebuilt.child j k)).Disjoint
      (rebuilt.slots (t'.child l) (rebuilt.child j l)) :=
    have : Std.Symm (Function.onFun List.Disjoint fun k ↦ rebuilt.slots (t'.child k) (rebuilt.child j k)) :=
      ⟨fun _ _ h _ hx hy ↦ h hy hx⟩
    hpairwise.forall (List.mem_finRange k) (List.mem_finRange l) hne
  let jobs := (List.finRange t.size).reverse.map fun k : Fin t.size ↦
    treeJob f original rebuilt (t.child k) (t'.child (order k)) (original.child i k) (rebuilt.child j (order k))
  have hmem : ∀ x ∈ jobs.flatMap Job.slots, x ∈
      (List.finRange t'.size).flatMap fun k ↦ rebuilt.slots (t'.child k) (rebuilt.child j k) := by
    intro x hx
    obtain ⟨job, hjob, hx⟩ := List.mem_flatMap.mp hx
    obtain ⟨k, -, rfl⟩ := List.mem_map.mp hjob
    exact hin (order k) x hx
  have hdone : ∀ job ∈ jobs, job.Done original rebuilt := by
    intro job hjob
    obtain ⟨k, -, rfl⟩ := List.mem_map.mp hjob
    exact hchildren k
  have hapart : jobs.Pairwise fun a b ↦ a.slots.Disjoint b.slots := by
    rw [List.pairwise_map]
    refine (List.nodup_reverse.mpr (List.nodup_finRange t.size)).imp fun hne ↦ ?_
    exact hdisjoint _ _ (order.injective.ne hne)
  have hready : ∀ job ∈ jobs, AgreeOn job.slots rebuilt (write target).value := by
    intro job hjob
    obtain ⟨k, -, rfl⟩ := List.mem_map.mp hjob
    refine AgreeOn.off (fun x hx ↦ ?_) (hoff target) fun x hx hy ↦ hown hy (hin (order k) x hx)
    exact hagree x (List.mem_append_right _ (hin (order k) x hx))
  have hvisits : t.paths.map (original.indexAt i) = i :: jobs.flatMap Job.visits := by
    rw [t.paths_eq, List.map_cons, List.map_flatMap, List.flatMap_map]
    simp only [List.map_map]
    rfl
  have hturn : restoreTurn original rebuilt ⟨(i, j) :: rest, target, none⟩ =
      some ([(i, j)], ⟨jobs.map Job.indices ++ rest, write target, none⟩) := by
    rw [restoreTurn, if_neg (by simp)]
    dsimp only
    rw [hnode]
    dsimp only
    rw [← List.map_reverse, List.map_map]
    rfl
  obtain ⟨target', log, hturns, hlog, hover', hoff', hgoals⟩ :=
    jobs_done hdone hapart rest (write target) ((hover target).trans hrebuilt) hready
  refine ⟨target', [(i, j)] ++ log, ?_, ?_, hover', fun x hx ↦ ?_, fun v hv hon ↦ ?_⟩
  · change Turns _ (t.paths.map (original.indexAt i)).length _ _ _
    rw [hvisits, List.length_cons, Nat.add_comm]
    exact (Turns.one hturn).trans hturns
  · change _ = t.paths.map (original.indexAt i)
    rw [hvisits, List.map_append, hlog]
    rfl
  · change x ∉ rebuilt.slots t' j at hx
    rw [hslots, List.mem_append, not_or] at hx
    exact (hoff target x hx.1).trans (hoff' x fun h ↦ hx.2 (hmem x h))
  · change AgreeOn (rebuilt.slots t' j) _ _ at hon
    rw [hslots] at hon
    refine hgoal v target hv (fun x hx ↦ hagree x (List.mem_append_left _ hx)) (fun x hx ↦ ?_) fun k ↦ ?_
    · exact (hon x (List.mem_append_left _ hx)).trans (hoff' x fun h ↦ hown hx (hmem x h)).symm
    · refine hgoals v hv (fun x hx ↦ hon x (List.mem_append_right _ (hmem x hx))) _ (List.mem_map.mpr ⟨k, ?_, rfl⟩)
      exact List.mem_reverse.mpr (List.mem_finRange k)

/-- The head of a node that is no object stays what it is. -/
theorem head_over (h : rebuilt.Head j t') (hkind : t'.kind = t.kind) (hsize : t'.size = t.size) (hobject : t.kind ≠ .object)
    (hscalar : ∀ v, t' = .scalar v → t = .scalar v) (hv : v.Over rebuilt) : v.Head j t := by
  obtain ⟨hnull, hlength, hidx, hcount, h⟩ := h
  unfold Storage.Head Storage.nestedData
  unfold Storage.nestedData at hidx hcount
  rw [hv.isNull, hv.valuesLength, hv.node, hv.childrenLength]
  refine ⟨hnull, hlength, hidx, hcount, ?_⟩
  cases hnode : rebuilt.node j <;> rw [hnode] at h <;> cases t' <;> cases t <;>
    simp_all [Tree.kind, Tree.size]

/-- That of an object has the keys that are written to its children. -/
theorem head_object {size : ℕ} {key key' : Fin size → List Byte} {member member' : Fin size → Tree σ}
    (h : rebuilt.Head j (.object size key' member')) (hv : v.Over rebuilt)
    (hkeys : ∀ k : Fin size, (v.entry (rebuilt.slot j k)).keysIndexValid ∧
      rebuilt.key (v.entry (rebuilt.slot j k)).keysIndex = key k) : v.Head j (.object size key member) := by
  obtain ⟨hnull, hlength, hidx, hcount, h⟩ := h
  have hslot := hv.slot j
  unfold Storage.Head
  unfold Storage.nestedData at hidx hcount ⊢
  rw [hv.isNull, hv.valuesLength, hv.node, hv.childrenLength]
  refine ⟨hnull, hlength, hidx, hcount, ?_⟩
  cases hnode : rebuilt.node j with
  | object childCount childrenIdx =>
    rw [hnode] at h
    refine ⟨h.1, fun k ↦ ?_⟩
    unfold Storage.keyAt
    rw [hslot, hv.key]
    exact hkeys k
  | null | scalar v | array childCount childrenIdx =>
    rw [hnode] at h
    exact h.elim

/-- The work from a node on, by induction on how the tree is rebuilt. -/
theorem tree_done (h : Rebuilt f t t') (ho : original.Reads i t) (hr : rebuilt.Reads j t') (hunique : t.Unique)
    (hnodup : (rebuilt.slots t' j).Nodup) : (treeJob f original rebuilt t t' i j).Done original rebuilt := by
  induction h generalizing i j with
  | null =>
    obtain ⟨ho, -⟩ := ho
    obtain ⟨hr, -⟩ := hr
    refine done_leaf ho (by simp [Tree.kind]) rfl fun v hv ↦ .node ?_ fun k ↦ k.elim0
    exact head_over hr rfl rfl (by simp [Tree.kind, Tree.map]) (by simp) hv
  | scalar w =>
    obtain ⟨ho, -⟩ := ho
    obtain ⟨hr, -⟩ := hr
    refine done_leaf ho (by simp [Tree.kind]) rfl fun v hv ↦ .node ?_ fun k ↦ k.elim0
    exact head_over hr rfl rfl (by simp [Tree.kind, Tree.map]) (fun _ h ↦ h) hv
  | @array size item item' _ ih =>
    obtain ⟨ho, hochild⟩ := ho
    obtain ⟨hr, hrchild⟩ := hr
    have hbelow := hnodup
    rw [rebuilt.slots_eq, List.nodup_append'] at hbelow
    obtain ⟨hparts, -⟩ := List.nodup_flatMap.mp hbelow.2.1
    refine done_container (.refl (Fin size)) id (fun target ↦ restoreNode_array ho hr)
      (fun target ↦ .refl _) (fun target x _ ↦ rfl) ?_ hnodup
      fun k ↦ ih k (hochild k) (hrchild k) (hunique k) (hparts k (List.mem_finRange k))
    intro v target hv hagree hon hreads
    refine .node (head_over hr rfl rfl (by simp [Tree.kind, Tree.map]) (by simp) hv) fun k ↦ ?_
    have hchild : v.child j k = rebuilt.child j k := by
      have hmem : rebuilt.slot j k ∈ (List.finRange size).map fun k : Fin size ↦ rebuilt.slot j k :=
        List.mem_map.mpr ⟨k, List.mem_finRange k, rfl⟩
      unfold Storage.child
      rw [hv.slot, hon _ hmem, hagree _ hmem]
      rfl
    rw [hchild]
    exact hreads k
  | @object size key member member' order _ ih =>
    obtain ⟨ho, hochild⟩ := ho
    obtain ⟨hr, hrchild⟩ := hr
    obtain ⟨hkey, hunique⟩ := hunique
    have hbelow := hnodup
    rw [rebuilt.slots_eq, List.nodup_append'] at hbelow
    obtain ⟨hown, hbelow, -⟩ := hbelow
    obtain ⟨hparts, -⟩ := List.nodup_flatMap.mp hbelow
    have hplaces : (orderWrites rebuilt j order).map Prod.fst =
        (List.finRange size).map fun k : Fin size ↦ rebuilt.slot j k := by
      rw [orderWrites, List.map_map]
      rfl
    have hoff (target : Target σ) := writeAll_off (orderWrites rebuilt j order) target
    rw [hplaces] at hoff
    refine done_container order (writeAll (orderWrites rebuilt j order))
      (fun target ↦ restoreNode_object hkey ho hr) (writeAll_over _) hoff ?_ hnodup
      fun k ↦ ih k (hochild k) (hrchild (order k)) (hunique k) (hparts (order k) (List.mem_finRange _))
    intro v target hv _ hon hreads
    have hentry (k : Fin size) : v.entry (rebuilt.slot j k) =
        ⟨(rebuilt.entry (rebuilt.slot j (order k))).keysIndex, true, rebuilt.child j (order k)⟩ := by
      have hmem : rebuilt.slot j k ∈ (List.finRange size).map fun k : Fin size ↦ rebuilt.slot j k :=
        List.mem_map.mpr ⟨k, List.mem_finRange k, rfl⟩
      rw [hon _ hmem]
      refine writeAll_on (by rwa [hplaces]) target (_, _, _) ?_
      exact List.mem_map.mpr ⟨k, List.mem_finRange k, rfl⟩
    have hkeys (k : Fin size) : rebuilt.keyAt (rebuilt.slot j (order k)) = key k := by
      obtain ⟨-, -, -, -, h⟩ := hr
      cases hnode : rebuilt.node j with
      | object childCount childrenIdx =>
        rw [hnode] at h
        rw [(h.2 (order k)).2, Function.comp_apply, order.symm_apply_apply]
      | null | scalar v | array childCount childrenIdx =>
        rw [hnode] at h
        exact h.elim
    refine .node (head_object hr hv fun k ↦ ?_) fun k ↦ ?_
    · rw [hentry]
      exact ⟨rfl, hkeys k⟩
    · have hchild : v.child j k = rebuilt.child j (order k) := by
        unfold Storage.child
        rw [hv.slot]
        have hvalue := congrArg ChildEntry.valuesIndex (hentry k)
        exact hvalue
      rw [hchild]
      exact hreads k

/-- The builder has laid a tree out with the children of each node in places of their own. -/
structure Target.Holds (result : Target σ) (t : Tree σ) : Prop where
  reads : result.value.Reads 0 t
  apart : (result.value.slots t 0).Nodup

/-- The row that the loop leaves. -/
theorem exists_restored {result : Target σ} (ho : original.Reads 0 t) (hunique : t.Unique)
    (hrebuilt : Rebuilt f t t') (hresult : result.Holds t') :
    ∃ log target, (∀ turns, t.paths.length ≤ turns →
        restoreObjectOrder original result turns = some (log, .ok target)) ∧
      log.map Prod.fst = t.paths.map (original.indexAt 0) ∧ target.value.Reads 0 (t.map f) := by
  have hdone := tree_done hrebuilt ho hresult.reads hunique hresult.apart
  obtain ⟨target, log, hturns, hlog, hover, -, hgoal⟩ := hdone [] result (.refl _) fun _ _ ↦ rfl
  obtain ⟨⟨-, hlength, -⟩, -⟩ := hresult.reads
  have hopened : result.value.opened = .ok result.value := if_pos (.inr (Nat.ne_zero_of_lt hlength))
  refine ⟨log, target, fun turns hle ↦ ?_, hlog, hgoal target.value hover fun _ _ ↦ rfl⟩
  have hloop := hturns.loop_eq rfl (by simpa [treeJob] using hle)
  unfold restoreObjectOrder
  rw [hopened]
  dsimp only
  change loop _ turns (⟨[(0, 0)], result, none⟩ : Restore σ) = _ at hloop
  rw [hloop]
  rfl

/-- The loop restores the order of all objects. It visits each node of the tree once, in the
order of the paths from the last child of each node to the first. -/
theorem restoreObjectOrder_order {result : Target σ} (ho : original.Reads 0 t) (hunique : t.Unique)
    (hrebuilt : Rebuilt f t t') (hresult : result.Holds t') :
    (∀ turns, t.paths.length ≤ turns → ∃ log target, restoreObjectOrder original result turns = some (log, .ok target) ∧
      log.map Prod.fst = t.paths.map (original.indexAt 0) ∧ target.value.Reads 0 (t.map f)) ∧
    t.paths.Nodup ∧ ∀ path, path ∈ t.paths ↔ (t.at? path).isSome := by
  refine ⟨fun turns hle ↦ ?_, t.paths_nodup, fun path ↦ t.mem_paths⟩
  obtain ⟨log, target, hrun, hlog, hreads⟩ := exists_restored ho hunique hrebuilt hresult
  exact ⟨log, target, hrun turns hle, hlog, hreads⟩

end Jobs

section Example

def unsorted : Storage ℕ where
  isNull := false
  valuesLength := 4
  node := fun
    | 0 => .object 2 0
    | 1 => .scalar 10
    | 2 => .array 1 2
    | _ => .scalar 20
  childrenLength := 3
  entry := fun
    | 0 => ⟨0, true, 1⟩
    | 1 => ⟨1, true, 2⟩
    | _ => ⟨0, false, 3⟩
  key := fun
    | 0 => ascii "b"
    | _ => ascii "a"

def sorted : Target ℕ where
  isNull := false
  valuesLength := 4
  node := fun
    | 0 => .object 2 0
    | 1 => .array 1 2
    | 2 => .scalar 21
    | _ => .scalar 11
  childrenOffset := 5
  childrenLength := 3
  entry := fun
    | 5 => ⟨0, true, 1⟩
    | 6 => ⟨1, true, 3⟩
    | _ => ⟨0, false, 2⟩
  key := fun
    | 0 => ascii "a"
    | _ => ascii "b"

def unsortedTree : Tree ℕ :=
  .object 2 (fun k ↦ if k.1 = 0 then ascii "b" else ascii "a") fun k ↦
    if k.1 = 0 then .scalar 10 else .array 1 fun _ ↦ .scalar 20

def sortedTree : Tree ℕ :=
  .object 2 ((fun k ↦ if k.1 = 0 then ascii "b" else ascii "a") ∘ (Equiv.swap (0 : Fin 2) 1).symm) fun k ↦
    if k.1 = 0 then .array 1 fun _ ↦ .scalar 21 else .scalar 11

theorem restoreObjectOrder_swapped : ∃ log target, restoreObjectOrder unsorted sorted 4 = some (log, .ok target) ∧
    log.map Prod.fst = [0, 2, 3, 1] ∧ target.value.Reads 0 (unsortedTree.map (· + 1)) := by
  have ho : unsorted.Reads 0 unsortedTree := by
    have hfirst : unsorted.Reads 1 (.scalar 10) := .node ⟨rfl, by decide, by decide, by decide, rfl⟩ fun k ↦ k.elim0
    have hitem : unsorted.Reads 3 (.scalar 20) := .node ⟨rfl, by decide, by decide, by decide, rfl⟩ fun k ↦ k.elim0
    have hsecond : unsorted.Reads 2 (.array 1 fun _ ↦ .scalar 20) := by
      refine .node ⟨rfl, by decide, by decide, by decide, rfl⟩ fun k ↦ ?_
      match k with
      | ⟨0, _⟩ => exact hitem
    refine .node ⟨rfl, by decide, by decide, by decide, And.intro rfl (by decide)⟩ fun k ↦ ?_
    match k with
    | ⟨0, _⟩ => exact hfirst
    | ⟨1, _⟩ => exact hsecond
  have hr : sorted.Holds sortedTree := by
    have hitem : sorted.value.Reads 2 (.scalar 21) := .node ⟨rfl, by decide, by decide, by decide, rfl⟩ fun k ↦ k.elim0
    have hfirst : sorted.value.Reads 1 (.array 1 fun _ ↦ .scalar 21) := by
      refine .node ⟨rfl, by decide, by decide, by decide, rfl⟩ fun k ↦ ?_
      match k with
      | ⟨0, _⟩ => exact hitem
    have hsecond : sorted.value.Reads 3 (.scalar 11) := .node ⟨rfl, by decide, by decide, by decide, rfl⟩ fun k ↦ k.elim0
    refine ⟨.node ⟨rfl, by decide, by decide, by decide, And.intro rfl (by decide)⟩ fun k ↦ ?_, by decide⟩
    match k with
    | ⟨0, _⟩ => exact hfirst
    | ⟨1, _⟩ => exact hsecond
  have hunique : unsortedTree.Unique := by
    have hkey : ∀ k l : Fin 2, (if k.1 = 0 then ascii "b" else ascii "a") = (if l.1 = 0 then ascii "b" else ascii "a") →
        k = l := by decide
    refine And.intro (fun k l h ↦ hkey k l h) fun k ↦ ?_
    match k with
    | ⟨0, _⟩ => exact trivial
    | ⟨1, _⟩ => exact fun _ ↦ trivial
  have hrebuilt : Rebuilt (· + 1) unsortedTree sortedTree := by
    refine .object (Equiv.swap 0 1) fun k ↦ ?_
    match k with
    | ⟨0, _⟩ => exact .scalar 10
    | ⟨1, _⟩ => exact .array fun _ ↦ .scalar 20
  exact (restoreObjectOrder_order ho hunique hrebuilt hr).1 4 (by decide)

end Example

end PdoDuckdb.Bridge
