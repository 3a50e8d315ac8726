import PdoDuckdb.Nested.Rendering

namespace PdoDuckdb.Nested

open Byte Library.Collecting

/-- A property of the scalar types holds of every type, when each container has it
from its parts. -/
@[elab_as_elim]
theorem LogicalType.induction {P : LogicalType → Prop}
    (scalar : ∀ type, P (.scalar type))
    (list : ∀ child, P child → P (.list child))
    (array : ∀ child n, P child → P (.array child n))
    (struct : ∀ tuple fields, (∀ f ∈ fields, P f.2) → P (.struct tuple fields))
    (map : ∀ key value, P key → P value → P (.map key value))
    (union : ∀ members, (∀ m ∈ members, P m) → P (.union members)) (lt : LogicalType) : P lt :=
  @LogicalType.rec P (fun fields ↦ ∀ f ∈ fields, P f.2) (fun members ↦ ∀ m ∈ members, P m)
    (fun f ↦ P f.2) scalar list array struct map union
    (fun _ hf ↦ absurd hf List.not_mem_nil)
    (fun _ _ hhead htail _ hf ↦ (List.mem_cons.mp hf).elim (· ▸ hhead) (htail _))
    (fun _ hm ↦ absurd hm List.not_mem_nil)
    (fun _ _ hhead htail _ hm ↦ (List.mem_cons.mp hm).elim (· ▸ hhead) (htail _))
    (fun _ _ h ↦ h) lt

mutual

def LogicalType.scalars : LogicalType → List ScalarType
  | .scalar type => [type]
  | .list child | .array child _ => child.scalars
  | .struct _ fields => fieldScalars fields
  | .map key value => key.scalars ++ value.scalars
  | .union members => memberScalars members

def fieldScalars : List (List Byte × LogicalType) → List ScalarType
  | [] => []
  | (_, child) :: rest => child.scalars ++ fieldScalars rest

def memberScalars : List LogicalType → List ScalarType
  | [] => []
  | member :: rest => member.scalars ++ memberScalars rest

end

mutual

/-- Some scalar of the value is one that the driver has no text for. -/
def Value.declined (engine : Engine) : Value → Bool
  | .null => false
  | .scalar type d => type.declined engine d
  | .list items | .array items => itemsDeclined engine items
  | .struct _ fields => fieldsDeclined engine fields
  | .map entries => entriesDeclined engine entries
  | .union _ member => member.declined engine

def itemsDeclined (engine : Engine) : List Value → Bool
  | [] => false
  | v :: rest => v.declined engine || itemsDeclined engine rest

def fieldsDeclined (engine : Engine) : List (List Byte × Value) → Bool
  | [] => false
  | (_, v) :: rest => v.declined engine || fieldsDeclined engine rest

def entriesDeclined (engine : Engine) : List (Value × Value) → Bool
  | [] => false
  | (k, v) :: rest => k.declined engine || v.declined engine || entriesDeclined engine rest

end

section Lists

variable (v2 : Bool) (engine : Engine) (bridge : Bridge)

theorem memberScalars_eq (members : List LogicalType) :
    memberScalars members = members.flatMap LogicalType.scalars := by
  induction members with
  | nil => rfl
  | cons m rest ih => rw [memberScalars, ih, List.flatMap_cons]

theorem fieldScalars_eq (fields : List (List Byte × LogicalType)) :
    fieldScalars fields = fields.flatMap fun f ↦ f.2.scalars := by
  induction fields with
  | nil => rfl
  | cons f rest ih => rw [fieldScalars, ih, List.flatMap_cons]

theorem itemsDeclined_eq (vs : List Value) :
    itemsDeclined engine vs = vs.any (·.declined engine) := by
  induction vs with
  | nil => rfl
  | cons v rest ih => rw [itemsDeclined, ih, List.any_cons]

theorem fieldsDeclined_eq (fields : List (List Byte × Value)) :
    fieldsDeclined engine fields = fields.any fun f ↦ f.2.declined engine := by
  induction fields with
  | nil => rfl
  | cons f rest ih => rw [fieldsDeclined, ih, List.any_cons]

theorem entriesDeclined_eq (entries : List (Value × Value)) :
    entriesDeclined engine entries =
      entries.any fun e ↦ e.1.declined engine || e.2.declined engine := by
  induction entries with
  | nil => rfl
  | cons e rest ih => rw [entriesDeclined, ih, List.any_cons]

theorem itemTexts_eq (escape : Bool) (vs : List Value) :
    itemTexts v2 bridge escape vs = vs.map (nestedPdo v2 bridge escape) := by
  induction vs with
  | nil => rfl
  | cons v rest ih => rw [itemTexts, ih, List.map_cons, nestedPdo]

def fieldText (f : List Byte × Value) : List Byte :=
  bridge.quoteKey f.1 ++ [colon, space] ++ nestedPdo v2 bridge true f.2

theorem fieldTexts_eq (fields : List (List Byte × Value)) :
    fieldTexts v2 bridge false fields = fields.map (fieldText v2 bridge) := by
  induction fields with
  | nil => rfl
  | cons f rest ih =>
    rw [fieldTexts, ih, List.map_cons]
    rfl

def entryText (e : Value × Value) : List Byte :=
  nestedPdo v2 bridge true e.1 ++ equals :: nestedPdo v2 bridge true e.2

theorem entryTexts_eq (entries : List (Value × Value)) :
    entryTexts v2 bridge entries = entries.map (entryText v2 bridge) := by
  induction entries with
  | nil => rfl
  | cons e rest ih =>
    rw [entryTexts, ih, List.map_cons]
    rfl

end Lists

section Building

theorem fieldName_some {name name' : List Byte} (h : fieldName name = some name') :
    name' = name ∧ structNameIsFastSafe name := by
  unfold fieldName at h
  split at h
  · next hsafe =>
    have hwhole : cName name = name :=
      (List.takeWhile_prefix _).eq_of_length hsafe.1.symm
    cases h
    exact ⟨hwhole, hwhole ▸ hsafe.2⟩
  · cases h

theorem buildFields_cons {name : List Byte} {child : LogicalType}
    {rest : List (List Byte × LogicalType)} {fields : List (List Byte × RenderType)}
    (h : buildFields ((name, child) :: rest) = some fields) :
    ∃ rchild rrest, fields = (name, rchild) :: rrest ∧ structNameIsFastSafe name ∧
      nestedRenderTypeBuild child = some rchild ∧ buildFields rest = some rrest := by
  simp only [buildFields, Option.bind_eq_some_iff, Option.map_eq_some_iff] at h
  obtain ⟨name', hname, rchild, hchild, rrest, hrest, rfl⟩ := h
  obtain ⟨rfl, hsafe⟩ := fieldName_some hname
  exact ⟨rchild, rrest, rfl, hsafe, hchild, hrest⟩

theorem buildFields_mem {fields : List (List Byte × LogicalType)}
    {rfields : List (List Byte × RenderType)} (h : buildFields fields = some rfields)
    {f : List Byte × LogicalType} (hf : f ∈ fields) :
    ∃ rchild, nestedRenderTypeBuild f.2 = some rchild := by
  induction fields generalizing rfields with
  | nil => cases hf
  | cons f' rest ih =>
    obtain ⟨rchild, rrest, -, -, hchild, hrest⟩ := buildFields_cons h
    rcases List.mem_cons.mp hf with rfl | hf
    · exact ⟨rchild, hchild⟩
    · exact ih hrest hf

theorem memberValues_getElem? (members : List LogicalType) (i : ℕ) :
    (memberValues members)[i]? = members[i]?.map LogicalType.value := by
  induction members generalizing i with
  | nil => rfl
  | cons m rest ih =>
    cases i with
    | zero => rfl
    | succ i => exact ih i

theorem memberCells_getElem? (v2 : Bool) (engine : Engine) (members : List RenderType) (i : ℕ) :
    (memberCells v2 engine members)[i]? = members[i]?.map (fastNestedCell v2 engine) := by
  induction members generalizing i with
  | nil => rfl
  | cons m rest ih =>
    cases i with
    | zero => rfl
    | succ i => exact ih i

theorem buildMembers_getElem? {members : List LogicalType} {rmembers : List RenderType}
    (h : buildMembers members = some rmembers) {i : ℕ} {m : LogicalType}
    (hm : members[i]? = some m) :
    ∃ rm, rmembers[i]? = some rm ∧ nestedRenderTypeBuild m = some rm := by
  induction members generalizing rmembers i with
  | nil => cases hm
  | cons m' rest ih =>
    simp only [buildMembers, Option.bind_eq_some_iff, Option.map_eq_some_iff] at h
    obtain ⟨rm, hrm, rrest, hrest, rfl⟩ := h
    cases i with
    | zero =>
      cases hm
      exact ⟨rm, rfl, hrm⟩
    | succ i => exact ih hrest hm

end Building

section Cells

variable {v2 : Bool} {engine : Engine} {bridge : Bridge}

def Agrees (v2 : Bool) (engine : Engine) (bridge : Bridge) (type : ScalarType) : Prop :=
  ∀ d, type.holds d → ∀ escape, smartAppendFastScalar v2 engine escape type d =
    if type.declined engine d then none
    else some (if escape then quoteNested v2 (bridge.cast type d) else bridge.cast type d)

def rendered (v2 : Bool) (engine : Engine) (bridge : Bridge) (escape : Bool) (v : Value) :
    Option (List Byte) :=
  if v.declined engine then none else some (nestedPdo v2 bridge escape v)

theorem rows_eq {α β : Type} {f : ℕ → Option α} {g : ℕ → Option β} {k : α → Option β}
    {offset n : ℕ} {vs : List α} (h : rows f offset n = some vs)
    (hk : ∀ i < n, ∀ v, f (offset + i) = some v → g (offset + i) = k v) :
    rows g offset n = vs.mapM k :=
  mapM_eq_mapM h fun i hi v hv ↦ hk i (List.mem_range.mp hi) v hv

theorem rows_rendered {f : ℕ → Option Value} {g : ℕ → Option (List Byte)} {offset n : ℕ}
    {vs : List Value} {escape : Bool} (h : rows f offset n = some vs)
    (hk : ∀ i < n, ∀ v, f (offset + i) = some v →
      g (offset + i) = rendered v2 engine bridge escape v) :
    rows g offset n = if itemsDeclined engine vs then none
      else some (itemTexts v2 bridge escape vs) := by
  rw [rows_eq h hk, itemsDeclined_eq, itemTexts_eq]
  exact mapM_guard _ _ vs

/-- The renderer of a type gives the bridge's text of every value of the type. -/
def Renders (v2 : Bool) (engine : Engine) (bridge : Bridge) (lt : LogicalType) : Prop :=
  ∀ rt, nestedRenderTypeBuild lt = some rt → ∀ vec row v, lt.value vec row = some v →
    ∀ escape, fastNestedCell v2 engine rt vec row escape = rendered v2 engine bridge escape v

theorem rendered_null (escape : Bool) :
    rendered v2 engine bridge escape .null = some (ascii "NULL") := by
  simp [rendered, Value.declined, nestedPdo, nestedText]

/-- NULL is the same text for every type, so a type is left with its other values. -/
theorem rendered_of_value {vec : Vector} {row : ℕ} {cell : Option (List Byte)}
    {value : Option Value} {v : Value} {escape : Bool}
    (hvalue : (if vec.isNull row then some .null else value) = some v)
    (h : value = some v → cell = rendered v2 engine bridge escape v) :
    (if vec.isNull row then some (ascii "NULL") else cell) =
      rendered v2 engine bridge escape v := by
  by_cases hnull : vec.isNull row
  · rw [if_pos hnull, Option.some.injEq] at hvalue
    rw [if_pos hnull, ← hvalue, rendered_null]
  · rw [if_neg hnull] at hvalue ⊢
    exact h hvalue

theorem renders_scalar {type : ScalarType} (h : Agrees v2 engine bridge type) :
    Renders v2 engine bridge (.scalar type) := by
  intro rt hbuild vec row v hvalue escape
  simp only [nestedRenderTypeBuild, Option.ite_none_right_eq_some, Option.some.injEq] at hbuild
  obtain ⟨-, rfl⟩ := hbuild
  simp only [LogicalType.value] at hvalue
  refine rendered_of_value hvalue fun hvalue ↦ ?_
  obtain ⟨d, hd, hvalue⟩ := Option.bind_eq_some_iff.mp hvalue
  rw [hd, Option.bind_some]
  by_cases hsql : type = .sqlNull
  · rw [if_pos hsql, Option.some.injEq] at hvalue
    rw [hsql, ← hvalue, rendered_null, smartAppendFastScalar]
  · rw [if_neg hsql, Option.ite_none_right_eq_some, Option.some.injEq] at hvalue
    obtain ⟨hholds, rfl⟩ := hvalue
    exact h d hholds escape

theorem renders_list {child : LogicalType} (h : Renders v2 engine bridge child) :
    Renders v2 engine bridge (.list child) := by
  intro rt hbuild vec row v hvalue escape
  obtain ⟨rchild, hchild, rfl⟩ := Option.map_eq_some_iff.mp hbuild
  simp only [LogicalType.value] at hvalue
  refine rendered_of_value hvalue fun hvalue ↦ ?_
  obtain ⟨⟨e, size, items⟩, hentry, hvalue⟩ := Option.bind_eq_some_iff.mp hvalue
  simp only [Option.ite_none_right_eq_some, Option.map_eq_some_iff] at hvalue
  obtain ⟨hinside, vs, hrows, rfl⟩ := hvalue
  have htexts := rows_rendered (g := (fastNestedCell v2 engine rchild items · true)) hrows
    fun i _ v hv ↦ h rchild hchild items _ v hv true
  simp only [hentry, Option.bind_some]
  rw [if_neg (by omega), htexts]
  cases hdeclined : itemsDeclined engine vs <;>
    simp [rendered, Value.declined, hdeclined, nestedPdo, nestedText, canonicalPdo]

theorem renders_array {child : LogicalType} (n : ℕ) (h : Renders v2 engine bridge child) :
    Renders v2 engine bridge (.array child n) := by
  intro rt hbuild vec row v hvalue escape
  obtain ⟨rchild, hchild, rfl⟩ := Option.map_eq_some_iff.mp hbuild
  simp only [LogicalType.value] at hvalue
  refine rendered_of_value hvalue fun hvalue ↦ ?_
  obtain ⟨items, hitems, hvalue⟩ := Option.bind_eq_some_iff.mp hvalue
  simp only [Option.ite_none_right_eq_some, Option.map_eq_some_iff] at hvalue
  obtain ⟨hinside, vs, hrows, rfl⟩ := hvalue
  have hbase : row * n + n ≤ idxMax + 1 := by rwa [← Nat.succ_mul]
  have hrow : ¬ (n ≠ 0 ∧ idxMax / n < row) := by
    rintro ⟨hn, hrow⟩
    have hlt := (Nat.div_lt_iff_lt_mul (Nat.pos_of_ne_zero hn)).mp hrow
    omega
  have hcell : ∀ i < n, ∀ v, child.value items (row * n + i) = some v →
      fastNestedCell v2 engine rchild items ((row * n + i) % (idxMax + 1)) v2 =
        rendered v2 engine bridge v2 v := by
    intro i hi v hv
    rw [Nat.mod_eq_of_lt (by omega)]
    exact h rchild hchild items _ v hv v2
  have htexts := rows_rendered (g := fun i ↦ fastNestedCell v2 engine rchild items (i % (idxMax + 1)) v2)
    hrows hcell
  rw [hitems, Option.bind_some, if_neg hrow, htexts]
  cases hdeclined : itemsDeclined engine vs <;>
    simp [rendered, Value.declined, hdeclined, nestedPdo, nestedText, canonicalPdo]

def renderedField (v2 : Bool) (engine : Engine) (bridge : Bridge) (f : List Byte × Value) :
    Option (List Byte) :=
  if f.2.declined engine then none else some (fieldText v2 bridge f)

theorem structRow_eq (hkey : ∀ name, structNameIsFastSafe name →
      bridge.quoteKey name = quote :: (name ++ [quote]))
    {fields : List (List Byte × LogicalType)} {rfields : List (List Byte × RenderType)}
    (hbuild : buildFields fields = some rfields)
    (h : ∀ f ∈ fields, Renders v2 engine bridge f.2) {vec : Vector} {row i : ℕ}
    {vs : List (List Byte × Value)} (hvs : structRow vec row i (fieldValues fields) = some vs) :
    structRow vec row i (fieldCells v2 engine rfields) =
      vs.mapM (renderedField v2 engine bridge) := by
  induction fields generalizing rfields i vs with
  | nil =>
    cases hbuild
    cases hvs
    rfl
  | cons f rest ih =>
    obtain ⟨name, child⟩ := f
    obtain ⟨rchild, rrest, rfl, hsafe, hchild, hrest⟩ := buildFields_cons hbuild
    simp only [fieldValues, structRow, Option.bind_eq_some_iff, Option.map_eq_some_iff] at hvs
    obtain ⟨item, hitem, nv, ⟨v, hv, rfl⟩, vrest, hvrest, rfl⟩ := hvs
    have hcell := h _ List.mem_cons_self rchild hchild item row v hv true
    have htail := ih hrest (fun f hf ↦ h f (List.mem_cons_of_mem _ hf)) hvrest
    have htext : quote :: (name ++ (ascii "': " ++ nestedPdo v2 bridge true v)) =
        fieldText v2 bridge (name, v) := by
      have hascii : ascii "': " = [quote, colon, space] := rfl
      simp [fieldText, hkey name hsafe, hascii]
    simp only [fieldCells, structRow, hitem, Option.bind_some, hcell, htail, List.mapM_cons,
      renderedField, rendered]
    cases hdeclined : v.declined engine
    · cases vrest.mapM (renderedField v2 engine bridge) <;> simp [htext]
    · simp

theorem renders_struct (hkey : ∀ name, structNameIsFastSafe name →
      bridge.quoteKey name = quote :: (name ++ [quote]))
    (tuple : Bool) {fields : List (List Byte × LogicalType)}
    (h : ∀ f ∈ fields, Renders v2 engine bridge f.2) :
    Renders v2 engine bridge (.struct tuple fields) := by
  intro rt hbuild vec row v hvalue escape
  cases tuple with
  | true => cases hbuild
  | false =>
    obtain ⟨rfields, hfields, rfl⟩ := Option.map_eq_some_iff.mp hbuild
    simp only [LogicalType.value] at hvalue
    refine rendered_of_value hvalue fun hvalue ↦ ?_
    obtain ⟨vs, hvs, rfl⟩ := Option.map_eq_some_iff.mp hvalue
    have htexts : vs.mapM (renderedField v2 engine bridge) =
        if fieldsDeclined engine vs then none else some (fieldTexts v2 bridge false vs) := by
      rw [fieldsDeclined_eq, fieldTexts_eq]
      exact mapM_guard _ _ vs
    rw [structRow_eq hkey hfields h hvs, htexts]
    cases hdeclined : fieldsDeclined engine vs <;>
      simp [rendered, Value.declined, hdeclined, nestedPdo, nestedText, canonicalPdo]

def renderedEntry (v2 : Bool) (engine : Engine) (bridge : Bridge) (e : Value × Value) :
    Option (List Byte) :=
  if e.1.declined engine || e.2.declined engine then none else some (entryText v2 bridge e)

theorem renders_map {key item : LogicalType} (hkey : Renders v2 engine bridge key)
    (hitem : Renders v2 engine bridge item) : Renders v2 engine bridge (.map key item) := by
  intro rt hbuild vec row v hvalue escape
  simp only [nestedRenderTypeBuild, Option.bind_eq_some_iff, Option.map_eq_some_iff] at hbuild
  obtain ⟨rkey, hrkey, ritem, hritem, rfl⟩ := hbuild
  simp only [LogicalType.value] at hvalue
  refine rendered_of_value hvalue fun hvalue ↦ ?_
  obtain ⟨⟨e, size, entries⟩, hentry, hvalue⟩ := Option.bind_eq_some_iff.mp hvalue
  simp only [Option.bind_eq_some_iff, Option.ite_none_right_eq_some,
    Option.map_eq_some_iff] at hvalue
  obtain ⟨keys, hkeys, items, hitems, hinside, vs, hrows, rfl⟩ := hvalue
  have hcell : ∀ i < e.length, ∀ kv, ((key.value keys (e.offset + i)).bind fun k ↦
      (item.value items (e.offset + i)).map (k, ·)) = some kv →
      ((fastNestedCell v2 engine rkey keys (e.offset + i) true).bind fun k ↦
        (fastNestedCell v2 engine ritem items (e.offset + i) true).map fun v ↦
          k ++ equals :: v) = renderedEntry v2 engine bridge kv := by
    intro i _ kv hkv
    simp only [Option.bind_eq_some_iff, Option.map_eq_some_iff] at hkv
    obtain ⟨k, hk, v, hv, rfl⟩ := hkv
    rw [hkey rkey hrkey keys _ k hk true, hitem ritem hritem items _ v hv true]
    simp only [rendered, renderedEntry, entryText]
    cases k.declined engine <;> cases v.declined engine <;> simp
  have htexts : vs.mapM (renderedEntry v2 engine bridge) =
      if entriesDeclined engine vs then none else some (entryTexts v2 bridge vs) := by
    rw [entriesDeclined_eq, entryTexts_eq]
    exact mapM_guard _ _ vs
  simp only [hentry, hkeys, hitems, Option.bind_some]
  rw [if_neg (by omega), rows_eq hrows hcell, htexts]
  cases hdeclined : entriesDeclined engine vs <;>
    simp [rendered, Value.declined, hdeclined, nestedPdo, nestedText, canonicalPdo]

theorem renders_union {members : List LogicalType}
    (h : ∀ m ∈ members, Renders v2 engine bridge m) :
    Renders v2 engine bridge (.union members) := by
  intro rt hbuild vec row v hvalue escape
  obtain ⟨rmembers, hmembers, rfl⟩ := Option.map_eq_some_iff.mp hbuild
  simp only [LogicalType.value] at hvalue
  refine rendered_of_value hvalue fun hvalue ↦ ?_
  obtain ⟨tag, htag, hvalue⟩ := Option.bind_eq_some_iff.mp hvalue
  simp only [Option.bind_eq_some_iff, Option.map_eq_some_iff, memberValues_getElem?] at hvalue
  obtain ⟨_, ⟨m, hm, rfl⟩, item, hitem, v, hv, rfl⟩ := hvalue
  obtain ⟨rm, hrm, hbuilt⟩ := buildMembers_getElem? hmembers hm
  rw [htag, Option.bind_some, memberCells_getElem?, hrm, Option.map_some, Option.bind_some, hitem,
    Option.bind_some, h m (List.mem_of_getElem? hm) rm hbuilt item row v hv false]
  simp [rendered, Value.declined, nestedPdo, nestedText, canonicalPdo]

theorem renders (hkey : ∀ name, structNameIsFastSafe name →
      bridge.quoteKey name = quote :: (name ++ [quote]))
    (lt : LogicalType) (h : ∀ type ∈ lt.scalars, Agrees v2 engine bridge type) :
    Renders v2 engine bridge lt := by
  induction lt using LogicalType.induction with
  | scalar type => exact renders_scalar (h type (by simp [LogicalType.scalars]))
  | list child ih => exact renders_list (ih h)
  | array child n ih => exact renders_array n (ih h)
  | struct tuple fields ih =>
    rw [LogicalType.scalars, fieldScalars_eq] at h
    refine renders_struct hkey tuple fun f hf ↦ ih f hf fun type htype ↦ h type ?_
    exact List.mem_flatMap_of_mem hf htype
  | map key item ihk ihv =>
    rw [LogicalType.scalars] at h
    exact renders_map (ihk fun type htype ↦ h type (List.mem_append_left _ htype))
      (ihv fun type htype ↦ h type (List.mem_append_right _ htype))
  | union members ih =>
    rw [LogicalType.scalars, memberScalars_eq] at h
    refine renders_union fun m hm ↦ ih m hm fun type htype ↦ h type ?_
    exact List.mem_flatMap_of_mem hm htype

theorem isRendered_of_build {lt : LogicalType} {rt : RenderType}
    (h : nestedRenderTypeBuild lt = some rt) : ∀ type ∈ lt.scalars, type.isRendered := by
  induction lt using LogicalType.induction generalizing rt with
  | scalar type =>
    obtain ⟨hrendered, -⟩ := Option.ite_none_right_eq_some.mp h
    intro type' htype
    rwa [List.mem_singleton.mp htype]
  | list child ih =>
    obtain ⟨rchild, hchild, -⟩ := Option.map_eq_some_iff.mp h
    exact ih hchild
  | array child n ih =>
    obtain ⟨rchild, hchild, -⟩ := Option.map_eq_some_iff.mp h
    exact ih hchild
  | struct tuple fields ih =>
    cases tuple with
    | true => cases h
    | false =>
      obtain ⟨rfields, hfields, -⟩ := Option.map_eq_some_iff.mp h
      rw [LogicalType.scalars, fieldScalars_eq]
      intro type htype
      obtain ⟨f, hf, htype⟩ := List.mem_flatMap.mp htype
      obtain ⟨rchild, hchild⟩ := buildFields_mem hfields hf
      exact ih f hf hchild type htype
  | map key item ihk ihv =>
    simp only [nestedRenderTypeBuild, Option.bind_eq_some_iff, Option.map_eq_some_iff] at h
    obtain ⟨rkey, hkey, ritem, hitem, -⟩ := h
    intro type htype
    rcases List.mem_append.mp htype with htype | htype
    · exact ihk hkey type htype
    · exact ihv hitem type htype
  | union members ih =>
    obtain ⟨rmembers, hmembers, -⟩ := Option.map_eq_some_iff.mp h
    rw [LogicalType.scalars, memberScalars_eq]
    intro type htype
    obtain ⟨m, hm, htype⟩ := List.mem_flatMap.mp htype
    obtain ⟨i, hi⟩ := List.mem_iff_getElem?.mp hm
    obtain ⟨rm, -, hbuilt⟩ := buildMembers_getElem? hmembers hi
    exact ih m hm hbuilt type htype

end Cells

/-- The driver's rule for quotes is the engine's, so the texts of a scalar type agree
when they do without quotes. -/
theorem agrees_of_cast {v2 : Bool} {engine : Engine} {bridge : Bridge} {type : ScalarType}
    (hcast : ∀ d, ∀ s ∈ smartAppendFastScalar v2 engine false type d, bridge.cast type d = s)
    (hfloat : type.isFloating → engine.PrintsNumerals) (hrendered : type.isRendered) :
    Agrees v2 engine bridge type := by
  intro d hholds escape
  rw [smartAppendFastScalar_eq v2 hfloat hholds]
  have hsome : (smartAppendFastScalar v2 engine false type d).isSome =
      !type.declined engine d := isSome_text v2 hrendered hholds
  cases htext : smartAppendFastScalar v2 engine false type d with
  | none =>
    have hdeclined : type.declined engine d := by simpa [htext] using hsome
    rw [if_pos hdeclined, Option.map_none]
  | some s =>
    have hdeclined : ¬ type.declined engine d := by simpa [htext] using hsome
    rw [if_neg hdeclined, hcast d s htext, Option.map_some]

/-- What is assumed of the engine: its casts of scalars give the driver's text where
the driver has one, a key of letters, digits and underscores is quoted as it is, and
floats are numerals, `inf` or `nan`. -/
structure EngineText (v2 : Bool) (engine : Engine) (bridge : Bridge) : Prop where
  cast : ∀ type d, ∀ s ∈ smartAppendFastScalar v2 engine false type d, bridge.cast type d = s
  key : ∀ name, structNameIsFastSafe name → bridge.quoteKey name = quote :: (name ++ [quote])
  numerals : engine.PrintsNumerals

/-- The direct renderer gives a value of any type it takes the text of the bridge's
structural rule, or gives none when a scalar of the value has no text of its own. -/
theorem fastNestedCell_canonical {v2 : Bool} {engine : Engine} {bridge : Bridge}
    (h : EngineText v2 engine bridge) {lt : LogicalType} {rt : RenderType}
    (hbuild : nestedRenderTypeBuild lt = some rt) {vec : Vector} {row : ℕ} {v : Value}
    (hvalue : lt.value vec row = some v) (escape : Bool) :
    fastNestedCell v2 engine rt vec row escape =
      if v.declined engine then none else some (nestedPdo v2 bridge escape v) :=
  renders h.key lt (fun type htype ↦
    agrees_of_cast (h.cast type) (fun _ ↦ h.numerals) (isRendered_of_build hbuild type htype))
    rt hbuild vec row v hvalue escape

theorem not_scalar_of_build {lt : LogicalType} {rt : RenderType}
    (h : nestedRenderTypeBuild lt = some rt) (hlt : ∀ type, lt ≠ .scalar type) (type : ScalarType) :
    rt ≠ .scalar type := by
  rintro rfl
  cases lt with
  | scalar type' => exact hlt type' rfl
  | struct tuple fields => cases tuple <;> simp [nestedRenderTypeBuild] at h
  | _ => simp [nestedRenderTypeBuild, Option.bind_eq_some_iff] at h

/-- A column of a nested type gets the text that its values get in other values. -/
theorem fastNestedColToString_canonical {v2 : Bool} {engine : Engine} {bridge : Bridge}
    (h : EngineText v2 engine bridge) {lt : LogicalType} {rt : RenderType}
    (hbuild : nestedRenderTypeBuild lt = some rt) (hlt : ∀ type, lt ≠ .scalar type)
    {vec : Vector} {row : ℕ} {v : Value} (hvalue : lt.value vec row = some v) :
    fastNestedColToString v2 engine rt vec row =
      if v.declined engine then none else some (nestedPdo v2 bridge true v) := by
  have hcell := renders h.key lt (fun type htype ↦
    agrees_of_cast (h.cast type) (fun _ ↦ h.numerals) (isRendered_of_build hbuild type htype))
    rt hbuild vec row v hvalue true
  have hrt := not_scalar_of_build hbuild hlt
  cases rt with
  | scalar type => exact absurd rfl (hrt type)
  | _ => exact hcell

section Samples

/-- An engine in which every day is the first of 1970, but the two infinite ones. -/
def sampleEngine : Engine where
  isFiniteDate date := date ≠ 2147483647 && date ≠ -2147483647
  fromDate _ := ⟨1970, 1, 1⟩
  toDate _ := 0
  isFiniteTimestamp _ := true
  fromTimestamp _ := (⟨1970, 1, 1⟩, ⟨0, 0, 0, 0⟩)
  fromTime _ := ⟨0, 0, 0, 0⟩
  floatText _ := some (ascii "1.0")
  doubleText _ := some (ascii "1.0")

def sampleBridge : Bridge where
  cast type d := (smartAppendFastScalar false sampleEngine false type d).getD (ascii "infinity")
  quoteKey name := quote :: (name ++ [quote])

theorem sample_engineText : EngineText false sampleEngine sampleBridge := by
  have hone : IsNumeral (ascii "1.0") := by
    have h : ascii "1.0" = [0x31, 0x2e, 0x30] := rfl
    rw [h]
    exact ⟨by simp, by simp [isNumeralByte, isDigit]⟩
  refine ⟨?_, fun name _ ↦ rfl, ?_, ?_⟩
  · intro type d s hs
    exact congrArg (·.getD (ascii "infinity")) (Option.mem_def.mp hs)
  · intro bits s hs
    cases hs
    exact hone
  · intro bits s hs
    cases hs
    exact hone

/-- `[a,b, NULL]`, behind the item of another row. -/
def sampleList : Vector :=
  .list none (fun _ ↦ ⟨1, 2⟩) 3 (.flat (some (· ≠ 2)) fun _ ↦ .bytes (ascii "a,b"))

theorem fastNestedCell_sampleList :
    fastNestedCell false sampleEngine (.list (.scalar .varchar)) sampleList 0 true =
      some (nestedPdo false sampleBridge true
        (.list [.scalar .varchar (.bytes (ascii "a,b")), .null])) := by
  have hbuild : nestedRenderTypeBuild (.list (.scalar .varchar)) =
      some (.list (.scalar .varchar)) := rfl
  have hvalue : (LogicalType.list (.scalar .varchar)).value sampleList 0 =
      some (.list [.scalar .varchar (.bytes (ascii "a,b")), .null]) := rfl
  have hcell := fastNestedCell_canonical sample_engineText hbuild hvalue true
  simpa [Value.declined, itemsDeclined, ScalarType.declined] using hcell

/-- `[infinity]`. -/
def infiniteList : Vector := .list none (fun _ ↦ ⟨0, 1⟩) 1 (.flat none fun _ ↦ .signed 2147483647)

theorem not_fastNestedCell_infinite :
    ¬ ∀ v2 engine bridge, EngineText v2 engine bridge →
      ∀ lt rt, nestedRenderTypeBuild lt = some rt →
        ∀ vec row v, lt.value vec row = some v → ∀ escape,
          fastNestedCell v2 engine rt vec row escape = some (nestedPdo v2 bridge escape v) := by
  intro h
  have hnone : fastNestedCell false sampleEngine (.list (.scalar .date)) infiniteList 0 true =
      none := rfl
  have htext := h false sampleEngine sampleBridge sample_engineText (.list (.scalar .date))
    (.list (.scalar .date)) rfl infiniteList 0 (.list [.scalar .date (.signed 2147483647)]) rfl true
  rw [hnone] at htext
  cases htext

end Samples

end PdoDuckdb.Nested
