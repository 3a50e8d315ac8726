import PdoDuckdb.Bridge.GeometryVariants

namespace PdoDuckdb.Bridge

open Library.Families Filter
open Structures (geometryText)

/-- What a `duckdb::Value` holds besides types. -/
inductive Content
  | null
  | leaf (bytes : List Byte)
  | variant (s : Storage ScalarValue)
  | nested (size : ℕ) (child : Fin size → Content)
  | union (tag : ℕ) (value : Content)

/-- A `duckdb::Value`, each value in it with its own type. -/
inductive NativeValue
  | null (type : LogicalType)
  | leaf (type : LogicalType) (bytes : List Byte)
  | variant (typeAlias : List Byte) (s : Storage ScalarValue)
  | nested (type : LogicalType) (size : ℕ) (child : Fin size → NativeValue)
  | union (type : LogicalType) (tag : ℕ) (value : NativeValue)

namespace NativeValue

def type : NativeValue → LogicalType
  | .null type | .leaf type _ | .nested type _ _ | .union type _ _ => type
  | .variant typeAlias _ => .variant typeAlias

def content : NativeValue → Content
  | .null _ => .null
  | .leaf _ bytes => .leaf bytes
  | .variant _ s => .variant s
  | .nested _ size child => .nested size fun i ↦ (child i).content
  | .union _ tag value => .union tag value.content

end NativeValue

namespace LogicalType

def entryType (key value : LogicalType) : LogicalType :=
  .struct [] false [ascii "key", ascii "value"] fun i ↦ if i.1 = 0 then key else value

def elementType : LogicalType → ℕ → LogicalType
  | .list _ child, _ | .array _ child _, _ => child
  | .map _ key value, _ => entryType key value
  | .struct _ _ names child, i => if h : i < names.length then child ⟨i, h⟩ else .other [] 0
  | _, _ => .other [] 0

def memberType : LogicalType → ℕ → LogicalType
  | .union _ names member, tag => if h : tag < names.length then member ⟨tag, h⟩ else .other [] 0
  | _, _ => .other [] 0

/-- The members of a UNION, as `StructType::GetChildTypes` has them behind the tag. -/
def memberList : LogicalType → List (List Byte × LogicalType)
  | .union _ names member => List.ofFn fun i : Fin names.length ↦ (names.get i, member i)
  | _ => []

def withoutAlias : LogicalType → LogicalType
  | .varchar _ collation => .varchar [] collation
  | .geometry _ crs => .geometry [] crs
  | .variant _ => .variant []
  | .other _ id => .other [] id
  | .list _ child => .list [] child
  | .array _ child size => .array [] child size
  | .struct _ tuple names child => .struct [] tuple names child
  | .map _ key value => .map [] key value
  | .union _ names member => .union [] names member

end LogicalType

section Converting

/-- The engine's `Value::STRUCT`, `Value::ARRAY`, `Value::LIST`, `Value::UNION`, and `WithType`
or `Reinterpret`. -/
structure ValueEngine where
  struct (type : LogicalType) {size : ℕ} (values : Fin size → NativeValue) : Except Stop NativeValue
  array (child : LogicalType) {size : ℕ} (values : Fin size → NativeValue) : Except Stop NativeValue
  list (child : LogicalType) {size : ℕ} (values : Fin size → NativeValue) : Except Stop NativeValue
  union (members : List (List Byte × LogicalType)) (tag : ℕ) (value : NativeValue) : Except Stop NativeValue
  withType (value : NativeValue) (type : LogicalType) : NativeValue

/-- The end of `geometry_as_hex`, on a value with children. -/
def nestedAsHex (engine : ValueEngine) (type : LogicalType) {size : ℕ} (values : Fin size → NativeValue) :
    Except Stop NativeValue :=
  match type with
  | .struct _ _ _ _ => engine.struct type values
  | .array _ child _ => engine.array child values
  | _ => (engine.list (type.elementType 0) values).map (engine.withType · type)

/-- `geometry_as_hex`. -/
def geometryAsHex (variants : VariantEngine) (engine : ValueEngine) (levels : ℕ) :
    NativeValue → Except Stop NativeValue
  | .null type => .ok (.null type.geometryType)
  | .leaf type bytes => (scalarAsHex ⟨type, bytes⟩).map fun v ↦ .leaf v.type v.bytes
  | .variant typeAlias s =>
    (variantGeometryAsHex variants levels typeAlias s).map fun r ↦ .variant r.1 r.2
  | .union type tag value =>
    match geometryAsHex variants engine levels value with
    | .error e => .error e
    | .ok v => engine.union type.geometryType.memberList tag v
  | .nested type _ child =>
    match collect fun i ↦ geometryAsHex variants engine levels (child i) with
    | .error e => .error e
    | .ok values => nestedAsHex engine type.geometryType values

end Converting

section Values

def LogicalType.isLeaf : LogicalType → Bool
  | .varchar _ _ | .geometry _ _ | .other _ _ => true
  | _ => false

def LogicalType.HasChildren : LogicalType → ℕ → Prop
  | .list _ _, _ | .map _ _ _, _ => True
  | .array _ _ size, n => n = size
  | .struct _ _ names _, n => n = names.length
  | _, _ => False

def LogicalType.HasMember : LogicalType → ℕ → Prop
  | .union _ names _, tag => tag < names.length
  | _, _ => False

def Matches : LogicalType → Content → Prop
  | _, .null => True
  | type, .leaf _ => type.isLeaf
  | type, .variant _ => ∃ typeAlias, type = .variant typeAlias
  | type, .nested size child => type.HasChildren size ∧ ∀ i : Fin size, Matches (type.elementType i) (child i)
  | type, .union tag value => type.HasMember tag ∧ Matches (type.memberType tag) value

/-- A value of the type, whose VARIANTs the engine can build again. -/
def Fits (engine : VariantEngine) : LogicalType → Content → Prop
  | _, .null => True
  | type, .leaf bytes => type.isLeaf ∧ (type.isGeometry → bytes.length ≤ sizeMax / 2)
  | type, .variant s => (∃ typeAlias, type = .variant typeAlias) ∧
      ∃ t, s.Reads 0 t ∧ t.Unique ∧ t.Fits ∧ engine.Builds (t.map hexed)
  | type, .nested size child => type.HasChildren size ∧
      ∀ i : Fin size, Fits engine (type.elementType i) (child i)
  | type, .union tag value => type.HasMember tag ∧ Fits engine (type.memberType tag) value

def NativeValue.Typed : NativeValue → Prop
  | .nested type _ child => ∀ i, (child i).type = type.elementType i ∧ (child i).Typed
  | .union type tag value => value.type = type.memberType tag ∧ value.Typed
  | _ => True

/-- A value whose type differs from the one asked for in its alias at most. -/
def NativeValue.Castable (v : NativeValue) (target : LogicalType) : Prop :=
  v.type.withoutAlias = target.withoutAlias ∧ Matches v.type v.content

/-- What becomes of such a value. One of the type itself is left alone, also where it is not
`Typed`. -/
structure Casts (target : LogicalType) (v v' : NativeValue) : Prop where
  same : v.type = target → v' = v
  type : v'.type = target
  content : v'.content = v.content
  typed : v.type ≠ target → v'.Typed

/-- What the engine documents. A STRUCT, an ARRAY and a LIST cast the values they are given, and a
UNION does not. -/
structure ValueEngine.Documented (engine : ValueEngine) : Prop where
  struct : ∀ typeAlias tuple names child (values : Fin (names : List (List Byte)).length → NativeValue),
    (∀ i, (values i).Castable (child i)) → ∃ values', (∀ i, Casts (child i) (values i) (values' i)) ∧
      engine.struct (.struct typeAlias tuple names child) values = .ok (.nested (.struct typeAlias tuple names child) _ values')
  array : ∀ child size (values : Fin size → NativeValue), (∀ i, (values i).Castable child) →
    ∃ values', (∀ i, Casts child (values i) (values' i)) ∧
      engine.array child values = .ok (.nested (.array [] child size) size values')
  list : ∀ child size (values : Fin size → NativeValue), (∀ i, (values i).Castable child) →
    ∃ values', (∀ i, Casts child (values i) (values' i)) ∧
      engine.list child values = .ok (.nested (.list [] child) size values')
  union : ∀ names member tag value, (h : tag < (names : List (List Byte)).length) → value.Castable (member ⟨tag, h⟩) →
    engine.union (List.ofFn fun i : Fin names.length ↦ (names.get i, member i)) tag value =
      .ok (.union (.union [] names member) tag value)
  withType : ∀ type type' size child, engine.withType (.nested type size child) type' = .nested type' size child

/-- The same shape, with the bytes of each GEOMETRY as hexadecimal text. -/
def Hexed : LogicalType → Content → Content → Prop
  | _, .null, c => c = .null
  | type, .leaf bytes, c => ∃ text, c = .leaf text ∧ if type.isGeometry then hexBytes text = some bytes else text = bytes
  | _, .variant s, c => ∃ s' t, c = .variant s' ∧ s.Reads 0 t ∧ s'.Reads 0 (t.map hexed)
  | type, .nested size child, c => ∃ child' : Fin size → Content, c = .nested size child' ∧
      ∀ i : Fin size, Hexed (type.elementType i) (child i) (child' i)
  | type, .union tag value, c => ∃ value', c = .union tag value' ∧ Hexed (type.memberType tag) value value'

def Free : Content → Prop
  | .null | .leaf _ => True
  | .variant s => ∀ t, s.Reads 0 t → t.any ScalarValue.isGeometry = false
  | .nested _ child => ∀ i, Free (child i)
  | .union _ value => Free value

/-- Values that are built without the alias of their type: an ARRAY or a UNION without GEOMETRY,
and a VARIANT with one. -/
def LosesAlias : LogicalType → Content → Prop
  | .array typeAlias child size, .nested _ _ => typeAlias ≠ [] ∧ (LogicalType.array typeAlias child size).hasGeometry = false
  | .union typeAlias names member, .union _ _ => typeAlias ≠ [] ∧ (LogicalType.union typeAlias names member).hasGeometry = false
  | .variant typeAlias, .variant s => typeAlias ≠ [] ∧ ¬ Free (.variant s)
  | _, _ => False

/-- A UNION has such a value, and nothing around it casts it. -/
def Mistypes : LogicalType → Content → Prop
  | type, .nested size child => ∃ i : Fin size,
      ¬ LosesAlias (type.elementType i) (child i) ∧ Mistypes (type.elementType i) (child i)
  | type, .union tag value => LosesAlias (type.memberType tag) value ∨ Mistypes (type.memberType tag) value
  | _, _ => False

structure Converts (variants : VariantEngine) (engine : ValueEngine) (v out : NativeValue) : Prop where
  type : out.type = v.type.geometryType
  typed : out.Typed
  shape : Hexed v.type v.content out.content
  free : out.type.hasGeometry = false ∧ Free out.content
  same : v.type.hasGeometry = false → Free v.content → out = v
  again : ∀ᶠ levels in atTop, geometryAsHex variants engine levels out = .ok out

end Values

section Types

variable {t : LogicalType} {n i tag : ℕ}

open LogicalType

theorem geometryType_entryType (key value : LogicalType) :
    (entryType key value).geometryType = entryType key.geometryType value.geometryType := by
  have hfields : (fun i : Fin 2 ↦ (if i.1 = 0 then key else value).geometryType) =
      fun i : Fin 2 ↦ if i.1 = 0 then key.geometryType else value.geometryType :=
    funext fun i ↦ apply_ite geometryType _ _ _
  unfold entryType
  rw [geometryType]
  split_ifs with h
  · exact congrArg (LogicalType.struct [] false _) (hfields ▸ (funext h).symm)
  · exact congrArg (LogicalType.struct [] false _) hfields

theorem elementType_geometryType (h : t.HasChildren n) (hi : i < n) :
    t.geometryType.elementType i = (t.elementType i).geometryType := by
  cases t with
  | list a c | array a c size =>
    rw [geometryType]
    split_ifs with hsame
    · exact hsame.symm
    · rfl
  | map a k v =>
    rw [geometryType]
    split_ifs with hsame
    · exact (geometryType_entryType k v).trans (by rw [hsame.1, hsame.2]; rfl) |>.symm
    · exact (geometryType_entryType k v).symm
  | struct a b names child =>
    have hlt : i < names.length := h ▸ hi
    rw [geometryType]
    split_ifs with hsame
    · simp [elementType, hlt, hsame]
    · simp [elementType, hlt]
  | varchar a c | geometry a c | variant a | other a i | union a names member => exact h.elim

theorem memberType_geometryType (h : t.HasMember tag) :
    t.geometryType.memberType tag = (t.memberType tag).geometryType := by
  cases t with
  | union a names member =>
    have hlt : tag < names.length := h
    rw [geometryType]
    split_ifs with hsame
    · simp [memberType, hlt, hsame]
    · simp [memberType, hlt]
  | _ => exact h.elim

theorem hasChildren_geometryType (h : t.HasChildren n) : t.geometryType.HasChildren n := by
  cases t with
  | list a c | array a c size | map a k v | struct a b names child =>
    rw [geometryType]
    split_ifs <;> exact h
  | varchar a c | geometry a c | variant a | other a i | union a names member => exact h.elim

theorem hasGeometry_elementType (h : t.HasChildren n) (hi : i < n) (hno : t.hasGeometry = false) :
    (t.elementType i).hasGeometry = false := by
  rw [← geometryType_eq_iff] at hno
  rw [← geometryType_eq_iff, ← elementType_geometryType h hi, hno]

theorem hasGeometry_memberType (h : t.HasMember tag) (hno : t.hasGeometry = false) :
    (t.memberType tag).hasGeometry = false := by
  rw [← geometryType_eq_iff] at hno
  rw [← geometryType_eq_iff, ← memberType_geometryType h, hno]

variable {engine : VariantEngine} {c : Content} {t' : LogicalType}

theorem fits_withoutAlias (t : LogicalType) (c : Content) : Fits engine t.withoutAlias c ↔ Fits engine t c := by
  cases c with
  | null => exact Iff.rfl
  | leaf bytes | nested size child | union tag value => cases t <;> exact Iff.rfl
  | variant s => cases t <;> simp [Fits, withoutAlias]

/-- The alias of a type does not matter for what fits it. -/
theorem Fits.of_alias (h : Fits engine t c) (heq : t.withoutAlias = t'.withoutAlias) : Fits engine t' c := by
  rwa [← fits_withoutAlias, ← heq, fits_withoutAlias]

theorem Fits.matches (h : Fits engine t c) : Matches t c := by
  induction c generalizing t with
  | null => exact trivial
  | leaf bytes | variant s => exact h.1
  | nested size child ih => exact ⟨h.1, fun i ↦ ih i (h.2 i)⟩
  | union tag value ih => exact ⟨h.1, ih h.2⟩

theorem matches_withoutAlias (t : LogicalType) (c : Content) : Matches t.withoutAlias c ↔ Matches t c := by
  cases c with
  | null => exact Iff.rfl
  | leaf bytes | nested size child | union tag value => cases t <;> exact Iff.rfl
  | variant s => cases t <;> simp [Matches, withoutAlias]

theorem free_variant {s : Storage ScalarValue} {tree : Tree ScalarValue} (h : s.Reads 0 tree) :
    Free (.variant s) ↔ tree.any ScalarValue.isGeometry = false := by
  refine ⟨fun hfree ↦ hfree tree h, fun hany tree' h' ↦ ?_⟩
  rwa [← h.unique h']

def LogicalType.built : LogicalType → LogicalType
  | .array _ child size => .array [] child size
  | t => t

theorem withoutAlias_built (t : LogicalType) : t.built.withoutAlias = t.withoutAlias := by cases t <;> rfl

end Types

section Typing

variable {t : LogicalType} {c : Content} {v w : NativeValue}

def typedValue : LogicalType → Content → NativeValue
  | type, .null => .null type
  | type, .leaf bytes => .leaf type bytes
  | .variant typeAlias, .variant s => .variant typeAlias s
  | _, .variant s => .variant [] s
  | type, .nested size child => .nested type size fun i ↦ typedValue (type.elementType i) (child i)
  | type, .union tag value => .union type tag (typedValue (type.memberType tag) value)

theorem typedValue_union (t : LogicalType) (tag : ℕ) (value : Content) :
    typedValue t (.union tag value) = .union t tag (typedValue (t.memberType tag) value) := by cases t <;> rfl

theorem typedValue_nested (t : LogicalType) {size : ℕ} (child : Fin size → Content) :
    typedValue t (.nested size child) = .nested t size fun i ↦ typedValue (t.elementType i) (child i) := by cases t <;> rfl

theorem typedValue_eq (h : v.Typed) : typedValue v.type v.content = v := by
  induction v with
  | null type | leaf type bytes | variant a s => rfl
  | nested type size child ih =>
    refine congrArg (NativeValue.nested type size) (funext fun i ↦ ?_)
    obtain ⟨htype, htyped⟩ := h i
    have hchild := ih i htyped
    rwa [htype] at hchild
  | union type tag value ih =>
    obtain ⟨htype, htyped⟩ := h
    have hvalue := ih htyped
    rw [htype] at hvalue
    exact congrArg (NativeValue.union type tag) hvalue

theorem content_typedValue (t : LogicalType) (c : Content) : (typedValue t c).content = c := by
  induction c generalizing t with
  | null | leaf bytes => cases t <;> rfl
  | variant s => cases t <;> rfl
  | nested size child ih =>
    rw [typedValue_nested]
    exact congrArg (Content.nested size) (funext fun i ↦ ih i _)
  | union tag value ih =>
    rw [typedValue_union]
    exact congrArg (Content.union tag) (ih _)

theorem type_typedValue (h : Matches t c) : (typedValue t c).type = t := by
  cases c with
  | null | leaf bytes => cases t <;> rfl
  | variant s =>
    obtain ⟨a, rfl⟩ := h
    rfl
  | nested size child =>
    rw [typedValue_nested]
    rfl
  | union tag value =>
    rw [typedValue_union]
    rfl

theorem typed_typedValue (h : Matches t c) : (typedValue t c).Typed := by
  induction c generalizing t with
  | null | leaf bytes => cases t <;> exact trivial
  | variant s => cases t <;> exact trivial
  | nested size child ih =>
    rw [typedValue_nested]
    exact fun i ↦ ⟨type_typedValue (h.2 i), ih i (h.2 i)⟩
  | union tag value ih =>
    rw [typedValue_union]
    exact ⟨type_typedValue h.2, ih h.2⟩

/-- A typed value is its type and its content. -/
theorem NativeValue.Typed.ext (hv : v.Typed) (hw : w.Typed) (htype : v.type = w.type) (hcontent : v.content = w.content) :
    v = w := by
  rw [← typedValue_eq hv, ← typedValue_eq hw, htype, hcontent]

theorem nestedAsHex_ok {engine : ValueEngine} (hengine : engine.Documented) {size : ℕ} {values : Fin size → NativeValue}
    (h : t.HasChildren size) (hvalues : ∀ i : Fin size, (values i).Castable (t.elementType i)) :
    ∃ values', (∀ i : Fin size, Casts (t.elementType i) (values i) (values' i)) ∧
      nestedAsHex engine t values = .ok (.nested t.built size values') := by
  cases t with
  | struct a b names child =>
    obtain rfl : size = names.length := h
    have helement (i : Fin names.length) : (LogicalType.struct a b names child).elementType i = child i := by
      simp [LogicalType.elementType]
    simp only [helement] at hvalues ⊢
    exact hengine.struct a b names child values hvalues
  | array a child n =>
    obtain rfl : size = n := h
    exact hengine.array child size values hvalues
  | list a child =>
    obtain ⟨values', hcasts, hlist⟩ := hengine.list child size values hvalues
    refine ⟨values', hcasts, ?_⟩
    have hmap : nestedAsHex engine (.list a child) values =
        (engine.list child values).map (engine.withType · (.list a child)) := rfl
    rw [hmap, hlist]
    exact congrArg Except.ok (hengine.withType _ _ _ _)
  | map a k v =>
    obtain ⟨values', hcasts, hlist⟩ := hengine.list (LogicalType.entryType k v) size values hvalues
    refine ⟨values', hcasts, ?_⟩
    have hmap : nestedAsHex engine (.map a k v) values =
        (engine.list (LogicalType.entryType k v) values).map (engine.withType · (.map a k v)) := rfl
    rw [hmap, hlist]
    exact congrArg Except.ok (hengine.withType _ _ _ _)
  | varchar a c | geometry a c | variant a | other a i | union a names member => exact h.elim

end Typing

section Results

variable {variants : VariantEngine} {engine : ValueEngine} {t : LogicalType} {c : Content} {v out : NativeValue}

open LogicalType

/-- What is known of a result, by induction on the value. -/
structure Converted (variants : VariantEngine) (engine : ValueEngine) (t : LogicalType) (c : Content) (out : NativeValue) :
    Prop where
  runs : ∀ᶠ levels in atTop, geometryAsHex variants engine levels (typedValue t c) = .ok out
  plain : out.type.withoutAlias = t.geometryType.withoutAlias
  type_iff : out.type = t.geometryType ↔ ¬ LosesAlias t c
  typed_iff : out.Typed ↔ ¬ Mistypes t c
  shape : Hexed t c out.content
  fits : Fits variants out.type out.content
  free : Free out.content
  same : t.hasGeometry = false → Free c → out.content = c
  keeps : out.Typed → ¬ LosesAlias out.type out.content ∧ ¬ Mistypes out.type out.content

theorem not_losesAlias_null (t : LogicalType) : ¬ LosesAlias t .null := by cases t <;> exact id

theorem not_losesAlias_leaf (t : LogicalType) (bytes : List Byte) : ¬ LosesAlias t (.leaf bytes) := by
  cases t <;> exact id

theorem converted_null (t : LogicalType) : Converted variants engine t .null (.null t.geometryType) where
  runs := .of_forall fun _ ↦ rfl
  plain := rfl
  type_iff := iff_of_true rfl (not_losesAlias_null t)
  typed_iff := iff_of_true trivial id
  shape := rfl
  fits := trivial
  free := trivial
  same _ _ := rfl
  keeps _ := ⟨not_losesAlias_null _, id⟩

theorem converted_leaf {bytes : List Byte} (h : Fits variants t (.leaf bytes)) :
    ∃ out, Converted variants engine t (.leaf bytes) out := by
  obtain ⟨hleaf, hlength⟩ := h
  have hscalar := scalarAsHex_eq (v := ⟨t, bytes⟩) hlength
  have htyped : typedValue t (.leaf bytes) = .leaf t bytes := by cases t <;> rfl
  by_cases hgeometry : t.isGeometry
  · cases t with
    | geometry a crs =>
      refine ⟨.leaf (.varchar [] []) (geometryText bytes), .of_forall fun levels ↦ ?_, rfl,
        iff_of_true rfl (not_losesAlias_leaf _ _), iff_of_true trivial id, ⟨_, rfl, ?_⟩, ⟨rfl, by simp [isGeometry, NativeValue.type]⟩,
        trivial, by simp [hasGeometry], fun _ ↦ ⟨not_losesAlias_leaf _ _, id⟩⟩
      · rw [htyped, geometryAsHex, hscalar]
        rfl
      · rw [if_pos hgeometry]
        exact hexBytes_geometryText bytes
    | _ => cases hgeometry
  · have htype : t.geometryType = t := by
      cases t with
      | varchar a c | other a i => rfl
      | geometry a crs => exact absurd rfl hgeometry
      | _ => cases hleaf
    refine ⟨.leaf t bytes, .of_forall fun levels ↦ ?_, by rw [htype]; rfl,
      iff_of_true htype.symm (not_losesAlias_leaf _ _), iff_of_true trivial id, ⟨_, rfl, ?_⟩, ⟨hleaf, hlength⟩, trivial,
      fun _ _ ↦ rfl, fun _ ↦ ⟨not_losesAlias_leaf _ _, id⟩⟩
    · rw [htyped, geometryAsHex, hscalar, hexed, if_neg hgeometry]
      rfl
    · rw [if_neg hgeometry]

theorem converted_variant {s : Storage ScalarValue} (h : Fits variants t (.variant s)) :
    ∃ out, Converted variants engine t (.variant s) out := by
  obtain ⟨⟨a, rfl⟩, tree, hreads, hunique, hfits, hbuilds⟩ := h
  obtain ⟨s', hruns, hreads', hsame⟩ := variantGeometryAsHex_reads hreads hunique hfits hbuilds a
  have hfree := free_variant hreads
  have hmapped : (tree.map hexed).any ScalarValue.isGeometry = false :=
    Tree.any_map (f := hexed) (p := ScalarValue.isGeometry) isGeometry_hexed tree
  have hfits' : (tree.map hexed).Fits := Tree.all_map (fun v hv ↦ absurd hv (by simp [ScalarValue.isGeometry, isGeometry_hexed])) tree
  have htwice : (tree.map hexed).map hexed = tree.map hexed :=
    Tree.map_eq_self (fun v hv ↦ (hexed_eq_iff v).mpr hv) hmapped
  refine ⟨.variant (if tree.any ScalarValue.isGeometry then [] else a) s', ?_, rfl, ?_, iff_of_true trivial id,
    ⟨s', tree, rfl, hreads, hreads'⟩, ⟨⟨_, rfl⟩, tree.map hexed, hreads', hunique.map hexed, hfits', ?_⟩,
    (free_variant hreads').mpr hmapped, fun _ hc ↦ ?_, fun _ ↦ ⟨?_, id⟩⟩
  · filter_upwards [hruns] with levels hlevels
    rw [typedValue, geometryAsHex, hlevels]
    rfl
  · show LogicalType.variant _ = .variant a ↔ ¬ (a ≠ [] ∧ ¬ Free (.variant s))
    rw [hfree, variant.injEq]
    cases tree.any ScalarValue.isGeometry <;> simp [eq_comm]
  · rwa [htwice]
  · exact congrArg Content.variant (hsame (hfree.mp hc))
  · exact fun hloses ↦ hloses.2 ((free_variant hreads').mpr hmapped)

theorem converted_union (hengine : engine.Documented) {tag : ℕ} {value : Content} (h : Fits variants t (.union tag value))
    (ih : ∃ out, Converted variants engine (t.memberType tag) value out) :
    ∃ out, Converted variants engine t (.union tag value) out := by
  obtain ⟨hmember, -⟩ := h
  obtain ⟨v, hv⟩ := ih
  cases t with
  | union a names member =>
    have hlt : tag < names.length := hmember
    have hgeometry : (union a names member).geometryType.withoutAlias =
        union [] names fun i ↦ (member i).geometryType := by
      rw [geometryType]
      split_ifs with hsame
      · exact congrArg (union [] names) (funext hsame).symm
      · rfl
    have hmembers : (union a names member).geometryType.memberList =
        List.ofFn fun i : Fin names.length ↦ (names.get i, (member i).geometryType) := by
      rw [geometryType]
      split_ifs with hsame
      · simp only [memberList, hsame]
      · rfl
    have htype : (union [] names fun i ↦ (member i).geometryType).memberType tag =
        ((union a names member).memberType tag).geometryType := by
      simp [memberType, hlt]
    have hplain : v.type.withoutAlias = (member ⟨tag, hlt⟩).geometryType.withoutAlias := by
      have h := hv.plain
      rwa [memberType, dif_pos hlt] at h
    have hunion := hengine.union names (fun i ↦ (member i).geometryType) tag v hlt ⟨hplain, hv.fits.matches⟩
    refine ⟨.union (union [] names fun i ↦ (member i).geometryType) tag v, ?_, hgeometry.symm, ?_, ?_, ⟨_, rfl, hv.shape⟩,
      ⟨hmember, ?_⟩, hv.free, fun hno hfree ↦ ?_, fun htyped ↦ ⟨fun hloses ↦ hloses.1 rfl, ?_⟩⟩
    · filter_upwards [hv.runs] with levels hlevels
      rw [typedValue_union, geometryAsHex, hlevels, hmembers]
      exact hunion
    · show _ ↔ ¬ (a ≠ [] ∧ (union a names member).hasGeometry = false)
      rw [← geometryType_eq_iff]
      by_cases hsame : ∀ i, (member i).geometryType = member i
      · have hfields := funext hsame
        rw [geometryType, if_pos hsame, hfields]
        simp [eq_comm, NativeValue.type]
      · have hne : union [] names (fun i ↦ (member i).geometryType) ≠ union a names member :=
          fun heq ↦ hsame fun i ↦ congrFun (eq_of_heq (union.inj heq).2.2) i
        rw [geometryType, if_neg hsame]
        exact iff_of_true rfl fun h ↦ hne h.2
    · show v.type = _ ∧ v.Typed ↔ ¬ (LosesAlias _ _ ∨ Mistypes _ _)
      rw [htype, hv.type_iff, hv.typed_iff, not_or]
    · refine hv.fits.of_alias ?_
      rw [NativeValue.type, htype]
      exact hv.plain
    · exact congrArg (Content.union tag) (hv.same (hasGeometry_memberType hmember hno) hfree)
    · obtain ⟨htag, hvalue⟩ := htyped
      obtain ⟨hloses, hmistypes⟩ := hv.keeps hvalue
      rw [htag] at hloses hmistypes
      exact not_or.mpr ⟨hloses, hmistypes⟩
  | _ => exact hmember.elim

theorem not_losesAlias_built {size : ℕ} (t : LogicalType) (child : Fin size → Content) :
    ¬ LosesAlias t.built (.nested size child) := by
  cases t with
  | array a c n => exact fun hloses ↦ hloses.1 rfl
  | _ => exact id

theorem built_eq_iff {size : ℕ} (h : t.HasChildren size) (child : Fin size → Content) :
    t.geometryType.built = t.geometryType ↔ ¬ LosesAlias t (.nested size child) := by
  cases t with
  | array a c n =>
    show _ ↔ ¬ (a ≠ [] ∧ (array a c n).hasGeometry = false)
    rw [← geometryType_eq_iff]
    by_cases hsame : c.geometryType = c
    · rw [geometryType, if_pos hsame]
      simp [built, eq_comm]
    · have hne : array [] c.geometryType n ≠ array a c n := fun heq ↦ hsame (array.inj heq).2.1
      rw [geometryType, if_neg hsame]
      exact iff_of_true rfl fun h ↦ hne h.2
  | list a c | map a k v | struct a b names child =>
    rw [geometryType]
    split_ifs <;> exact iff_of_true rfl id
  | varchar a c | geometry a c | variant a | other a i | union a names member => exact h.elim

/-- A value that was cast loses its alias again, or has no UNION. -/
theorem LosesAlias.again {c' : Content} (h : LosesAlias t c) (hshape : Hexed t c c') :
    LosesAlias t.geometryType c' ∨ ¬ Mistypes t.geometryType c' := by
  cases t with
  | array a child n =>
    cases c with
    | nested size items =>
      obtain ⟨items', rfl, -⟩ := hshape
      rw [(geometryType_eq_iff _).mpr h.2]
      exact .inl h
    | _ => exact h.elim
  | union a names member =>
    cases c with
    | union tag value =>
      obtain ⟨value', rfl, -⟩ := hshape
      rw [(geometryType_eq_iff _).mpr h.2]
      exact .inl h
    | _ => exact h.elim
  | variant a =>
    cases c with
    | variant s =>
      obtain ⟨s', tree, rfl, -, -⟩ := hshape
      exact .inr id
    | _ => exact h.elim
  | varchar a c | geometry a c | other a i | list a c | struct a b names child | map a k v => cases h

theorem converted_nested (hengine : engine.Documented) {size : ℕ} {child : Fin size → Content}
    (h : Fits variants t (.nested size child)) (ih : ∀ i : Fin size, ∃ out, Converted variants engine (t.elementType i) (child i) out) :
    ∃ out, Converted variants engine t (.nested size child) out := by
  obtain ⟨hchildren, -⟩ := h
  choose values hvalues using ih
  have helement (i : Fin size) := elementType_geometryType hchildren i.2
  have hplain (i : Fin size) : (values i).type.withoutAlias = (t.geometryType.elementType i).withoutAlias := by
    rw [helement]
    exact (hvalues i).plain
  have hgeometry := hasChildren_geometryType hchildren
  obtain ⟨values', hcasts, hnested⟩ := nestedAsHex_ok hengine hgeometry fun i ↦ ⟨hplain i, (hvalues i).fits.matches⟩
  have hruns := eventually_all.mpr fun i ↦ (hvalues i).runs
  have hbuilt : t.geometryType.built.HasChildren size ∧
      ∀ i, t.geometryType.built.elementType i = t.geometryType.elementType i := by
    generalize t.geometryType = type at hgeometry
    cases type <;> exact ⟨hgeometry, fun _ ↦ rfl⟩
  -- A child that keeps its alias is left alone, and is typed or not; another one is cast.
  have htyped (i : Fin size) : (values' i).Typed ↔ (LosesAlias (t.elementType i) (child i) ∨ ¬ Mistypes (t.elementType i) (child i)) := by
    have htype_iff := (hvalues i).type_iff
    rw [← helement] at htype_iff
    by_cases hloses : LosesAlias (t.elementType i) (child i)
    · exact iff_of_true ((hcasts i).typed fun htype ↦ htype_iff.mp htype hloses) (.inl hloses)
    · rw [(hcasts i).same (htype_iff.mpr hloses), (hvalues i).typed_iff]
      exact (or_iff_right hloses).symm
  refine ⟨.nested t.geometryType.built size values', ?_, withoutAlias_built _, ?_, ?_,
    ⟨_, rfl, fun i ↦ ?_⟩, ⟨hbuilt.1, fun i ↦ ?_⟩, fun i ↦ ?_, fun hno hfree ↦ ?_, fun hout ↦ ⟨?_, ?_⟩⟩
  · filter_upwards [hruns] with levels hlevels
    have hcollect : collect (fun i : Fin size ↦ geometryAsHex variants engine levels (typedValue (t.elementType i) (child i))) =
        .ok values := collect_ok hlevels
    rw [typedValue_nested, geometryAsHex, hcollect]
    exact hnested
  · exact built_eq_iff hchildren child
  · show (∀ i, _ ∧ (values' i).Typed) ↔ ¬ ∃ i : Fin size, ¬ LosesAlias (t.elementType i) (child i) ∧ Mistypes (t.elementType i) (child i)
    simp only [hbuilt.2, (hcasts _).type, true_and, htyped, not_exists, not_and_or, not_not]
  · rw [(hcasts i).content]
    exact (hvalues i).shape
  · have hfits := (hvalues i).fits
    rw [← (hcasts i).content] at hfits
    refine hfits.of_alias ?_
    exact (hplain i).trans (by rw [NativeValue.type, hbuilt.2])
  · have hfree := (hvalues i).free
    rwa [← (hcasts i).content] at hfree
  · refine congrArg (Content.nested size) (funext fun i ↦ ?_)
    rw [(hcasts i).content]
    exact (hvalues i).same (hasGeometry_elementType hchildren i.2 hno) (hfree i)
  · exact not_losesAlias_built t.geometryType _
  · rintro ⟨i, hloses, hmistypes⟩
    dsimp only at hloses hmistypes
    rw [NativeValue.type, hbuilt.2, helement, (hcasts i).content] at hloses hmistypes
    by_cases hlost : LosesAlias (t.elementType i) (child i)
    · rcases hlost.again (hvalues i).shape with hagain | hagain
      · exact hloses hagain
      · exact hagain hmistypes
    · have htype := (hvalues i).type_iff.mpr hlost
      have hsame := (hcasts i).same (htype.trans (helement i).symm)
      have hvalue := (hout i).2
      rw [hsame] at hvalue
      obtain ⟨-, hkeeps⟩ := (hvalues i).keeps hvalue
      rw [htype] at hkeeps
      exact hkeeps hmistypes

theorem exists_converted (hengine : engine.Documented) (h : Fits variants t c) : ∃ out, Converted variants engine t c out := by
  induction c generalizing t with
  | null => exact ⟨_, converted_null t⟩
  | leaf bytes => exact converted_leaf h
  | variant s => exact converted_variant h
  | nested size child ih => exact converted_nested hengine h fun i ↦ ih i (h.2 i)
  | union tag value ih => exact converted_union hengine h (ih h.2)

/-- The conversion makes of a value what it is to make of it, but for those that it builds
without the alias of their type, and those with one of these in a UNION. -/
theorem geometryAsHex_converts (hengine : engine.Documented) (hv : v.Typed) (h : Fits variants v.type v.content) :
    ((∃ out, (∀ᶠ levels in atTop, geometryAsHex variants engine levels v = .ok out) ∧ Converts variants engine v out) ↔
      ¬ LosesAlias v.type v.content ∧ ¬ Mistypes v.type v.content) ∧
    (v.type.Nameable → v.type.substituteGeometry = if v.type.geometryType = v.type then none else some v.type.geometryType) := by
  refine ⟨?_, substituteGeometry_eq v.type⟩
  obtain ⟨out, hout⟩ := exists_converted hengine h
  have hruns := hout.runs
  rw [typedValue_eq hv] at hruns
  constructor
  · rintro ⟨out', hruns', hconverts⟩
    obtain ⟨levels, hlevels, hlevels'⟩ := (hruns.and hruns').exists
    obtain rfl : out = out' := Except.ok.inj (hlevels.symm.trans hlevels')
    exact ⟨hout.type_iff.mp hconverts.type, hout.typed_iff.mp hconverts.typed⟩
  · rintro ⟨hkeeps, htypes⟩
    have htype := hout.type_iff.mpr hkeeps
    have htyped := hout.typed_iff.mpr htypes
    have hno : out.type.hasGeometry = false := by rw [htype, hasGeometry_geometryType]
    refine ⟨out, hruns, htype, htyped, hout.shape, ⟨hno, hout.free⟩, fun hgeometry hfree ↦ ?_, ?_⟩
    · have hsame := htype.trans ((geometryType_eq_iff v.type).mpr hgeometry)
      exact htyped.ext hv hsame (hout.same hgeometry hfree)
    · obtain ⟨hkeeps', htypes'⟩ := hout.keeps htyped
      obtain ⟨again, hagain⟩ := exists_converted hengine hout.fits
      have htype' := hagain.type_iff.mpr hkeeps'
      rw [(geometryType_eq_iff _).mpr hno] at htype'
      obtain rfl : again = out :=
        (hagain.typed_iff.mpr htypes').ext htyped htype' (hagain.same hno hout.free)
      have hruns' := hagain.runs
      rwa [typedValue_eq htyped] at hruns'

end Results

section Example

def pointVariant : Storage ScalarValue where
  isNull := false
  valuesLength := 2
  node := fun
    | 0 => .array 1 0
    | _ => .scalar ⟨.geometry [] [], [1]⟩
  childrenLength := 1
  entry _ := ⟨0, false, 1⟩
  key _ := []

def pointRow : Target ScalarValue where
  isNull := false
  valuesLength := 2
  node := fun
    | 0 => .array 1 0
    | _ => .scalar ⟨.varchar [] [], ascii "01"⟩
  childrenOffset := 0
  childrenLength := 1
  entry _ := ⟨0, false, 1⟩
  key _ := []

def pointVariants : VariantEngine where
  v2 := false
  toVariant _ := pointRow
  buildVariant _ := pointRow.value

def NativeValue.castTo (v : NativeValue) (type : LogicalType) : NativeValue :=
  if v.type = type then v else typedValue type v.content

/-- The constructors as the engine has them, for values whose types differ in the alias at most. -/
def pointEngine : ValueEngine where
  struct type {size} values := .ok (.nested type size fun i ↦ (values i).castTo (type.elementType i))
  array child {size} values := .ok (.nested (.array [] child size) size fun i ↦ (values i).castTo child)
  list child {size} values := .ok (.nested (.list [] child) size fun i ↦ (values i).castTo child)
  union members tag value := .ok (.union (.union [] (members.map Prod.fst) fun i ↦
    (members.get (i.cast (List.length_map _))).2) tag value)
  withType v type :=
    match v with
    | .nested _ size child => .nested type size child
    | v => v

theorem casts_castTo {v : NativeValue} {target : LogicalType} (h : v.Castable target) :
    Casts target v (v.castTo target) := by
  obtain ⟨halias, hmatches⟩ := h
  have htarget : Matches target v.content := by
    rwa [← matches_withoutAlias, ← halias, matches_withoutAlias]
  unfold NativeValue.castTo
  split_ifs with htype
  · exact ⟨fun _ ↦ rfl, htype, rfl, fun hne ↦ absurd htype hne⟩
  · exact ⟨fun heq ↦ absurd heq htype, type_typedValue htarget, content_typedValue target _,
      fun _ ↦ typed_typedValue htarget⟩

theorem pointEngine_documented : pointEngine.Documented where
  struct a b names child values h := by
    refine ⟨fun i ↦ (values i).castTo (child i), fun i ↦ casts_castTo (h i), ?_⟩
    simp [pointEngine, LogicalType.elementType]
  array child size values h := ⟨fun i ↦ (values i).castTo child, fun i ↦ casts_castTo (h i), rfl⟩
  list child size values h := ⟨fun i ↦ (values i).castTo child, fun i ↦ casts_castTo (h i), rfl⟩
  union names member tag value h hcastable := by
    have hnames : (List.ofFn fun i : Fin names.length ↦ (names.get i, member i)).map Prod.fst = names := by
      rw [List.map_ofFn]
      exact List.ofFn_get names
    refine congrArg Except.ok (congrArg (NativeValue.union · tag value) ?_)
    rw [LogicalType.union.injEq]
    refine ⟨rfl, hnames, ?_⟩
    refine Function.hfunext (congrArg (fun l : List (List Byte) ↦ Fin l.length) hnames) fun i j hij ↦ ?_
    have hij : i.1 = j.1 := (Fin.heq_ext_iff (congrArg List.length hnames)).mp hij
    simp [hij]
  withType type type' size child := rfl

def pointType : LogicalType :=
  .struct [] false [ascii "g", ascii "v"] fun i ↦ if i.1 = 0 then .list [] (.geometry [] []) else .variant []

def pointContent : Content :=
  .nested 2 fun i ↦ if i.1 = 0 then .nested 2 fun i ↦ if i.1 = 0 then .leaf [1] else .null else .variant pointVariant

theorem geometryAsHex_converts_point :
    (∃ out, (∀ᶠ levels in atTop, geometryAsHex pointVariants pointEngine levels (typedValue pointType pointContent) = .ok out) ∧
      Converts pointVariants pointEngine (typedValue pointType pointContent) out) ∧
    pointType.substituteGeometry = some pointType.geometryType := by
  have hlist : Fits pointVariants (.list [] (.geometry [] []))
      (.nested 2 fun i ↦ if i.1 = 0 then .leaf [1] else .null) := by
    refine ⟨trivial, fun i ↦ ?_⟩
    match i with
    | ⟨0, _⟩ => exact ⟨rfl, fun _ ↦ by decide⟩
    | ⟨1, _⟩ => exact trivial
  have hvariant : Fits pointVariants (.variant []) (.variant pointVariant) := by
    have hpoint : pointVariant.Reads 1 (.scalar ⟨.geometry [] [], [1]⟩) :=
      .node ⟨rfl, by decide, by decide, by decide, rfl⟩ fun k ↦ k.elim0
    have htext : pointRow.value.Reads 1 (.scalar ⟨.varchar [] [], ascii "01"⟩) :=
      .node ⟨rfl, by decide, by decide, by decide, rfl⟩ fun k ↦ k.elim0
    refine ⟨⟨[], rfl⟩, .array 1 fun _ ↦ .scalar ⟨.geometry [] [], [1]⟩, ?_, fun _ ↦ trivial, fun _ _ ↦ by decide, ?_⟩
    · refine .node ⟨rfl, by decide, by decide, by decide, rfl⟩ fun k ↦ ?_
      match k with
      | ⟨0, _⟩ => exact hpoint
    · refine ⟨.array 1 fun _ ↦ .scalar ⟨.varchar [] [], ascii "01"⟩, .array fun _ ↦ .scalar _, ?_, by decide⟩
      refine .node ⟨rfl, by decide, by decide, by decide, rfl⟩ fun k ↦ ?_
      match k with
      | ⟨0, _⟩ => exact htext
  have hfits : Fits pointVariants pointType pointContent := by
    refine ⟨rfl, fun i ↦ ?_⟩
    match i with
    | ⟨0, _⟩ => exact hlist
    | ⟨1, _⟩ => exact hvariant
  have hnameable : pointType.Nameable := by
    refine ⟨rfl, by decide, fun i ↦ ?_⟩
    match i with
    | ⟨0, _⟩ => exact trivial
    | ⟨1, _⟩ => exact trivial
  have hmistypes : ¬ Mistypes pointType pointContent := by
    rintro ⟨i, -, hchild⟩
    match i with
    | ⟨0, _⟩ =>
      obtain ⟨j, -, hitem⟩ := hchild
      match j with
      | ⟨0, _⟩ => exact hitem
      | ⟨1, _⟩ => exact hitem
    | ⟨1, _⟩ => exact hchild
  have hmatches := hfits.matches
  have hconverts := geometryAsHex_converts pointEngine_documented (typed_typedValue hmatches)
    (by rwa [type_typedValue hmatches, content_typedValue])
  rw [type_typedValue hmatches, content_typedValue] at hconverts
  exact ⟨hconverts.1.mpr ⟨id, hmistypes⟩, (hconverts.2 hnameable).trans (if_neg (by decide))⟩

/-- An ARRAY of a named type loses the name. -/
theorem not_converts_named :
    ¬ ∃ out, (∀ᶠ levels in atTop, geometryAsHex pointVariants pointEngine levels
        (.nested (.array (ascii "vec") (.other [] 0) 1) 1 fun _ ↦ .leaf (.other [] 0) [0]) = .ok out) ∧
      Converts pointVariants pointEngine (.nested (.array (ascii "vec") (.other [] 0) 1) 1 fun _ ↦ .leaf (.other [] 0) [0]) out := by
  rintro ⟨out, hruns, hconverts⟩
  obtain ⟨levels, hlevels⟩ := hruns.exists
  have htype : out.type = .array [] (.other [] 0) 1 := (Except.ok.inj hlevels).symm ▸ rfl
  rw [hconverts.type] at htype
  exact absurd htype (by decide)

end Example

end PdoDuckdb.Bridge
