import PdoDuckdb.Bridge.LogicalTypes

namespace PdoDuckdb.Bridge

namespace LogicalType

variable {t t' : LogicalType}

def beq : LogicalType → LogicalType → Bool
  | .varchar a c, .varchar a' c' | .geometry a c, .geometry a' c' => a == a' && c == c'
  | .variant a, .variant a' => a == a'
  | .other a i, .other a' i' => a == a' && i == i'
  | .list a c, .list a' c' => a == a' && c.beq c'
  | .array a c n, .array a' c' n' => a == a' && c.beq c' && n == n'
  | .struct a b names child, .struct a' b' names' child' => a == a' && b == b' &&
      if h : names = names' then decide (∀ i, (child i).beq (child' (i.cast (congrArg _ h)))) else false
  | .map a k v, .map a' k' v' => a == a' && k.beq k' && v.beq v'
  | .union a names member, .union a' names' member' => a == a' &&
      if h : names = names' then decide (∀ i, (member i).beq (member' (i.cast (congrArg _ h)))) else false
  | _, _ => false

theorem beq_iff (t t' : LogicalType) : t.beq t' ↔ t = t' := by
  induction t generalizing t' with
  | struct a b names child ih =>
    cases t' with
    | struct a' b' names' child' =>
      simp only [beq, Bool.and_eq_true, beq_iff_eq, struct.injEq]
      by_cases hnames : names = names'
      · obtain rfl := hnames
        simp [ih, funext_iff, and_assoc]
      · simp [hnames]
    | _ => simp [beq]
  | union a names member ih =>
    cases t' with
    | union a' names' member' =>
      simp only [beq, Bool.and_eq_true, beq_iff_eq, union.injEq]
      by_cases hnames : names = names'
      · obtain rfl := hnames
        simp [ih, funext_iff]
      · simp [hnames]
    | _ => simp [beq]
  | list a c ih => cases t' <;> simp [beq, ih]
  | array a c n ih => cases t' <;> simp [beq, ih, and_assoc]
  | map a k v ihKey ihValue => cases t' <;> simp [beq, ihKey, ihValue, and_assoc]
  | varchar a c | geometry a c | other a i => cases t' <;> simp [beq]
  | variant a => cases t' <;> simp [beq]

/-- The equality of the engine, which looks at aliases too. -/
instance : DecidableEq LogicalType := fun t t' ↦ decidable_of_iff _ (beq_iff t t')

def hasGeometry : LogicalType → Bool
  | .geometry _ _ => true
  | .list _ child | .array _ child _ => child.hasGeometry
  | .struct _ _ _ child => decide (∃ i, (child i).hasGeometry)
  | .map _ key value => key.hasGeometry || value.hasGeometry
  | .union _ _ member => decide (∃ i, (member i).hasGeometry)
  | .varchar _ _ | .variant _ | .other _ _ => false

/-- `geometry_type`. The entry of a MAP is a STRUCT of its key and its value. -/
def geometryType : LogicalType → LogicalType
  | .geometry _ _ => .varchar [] []
  | .struct typeAlias tuple names child =>
    if ∀ i, (child i).geometryType = child i then .struct typeAlias tuple names child
    else .struct [] tuple names fun i ↦ (child i).geometryType
  | .union typeAlias names member =>
    if ∀ i, (member i).geometryType = member i then .union typeAlias names member
    else .union [] names fun i ↦ (member i).geometryType
  | .list typeAlias child =>
    if child.geometryType = child then .list typeAlias child else .list [] child.geometryType
  | .map typeAlias key value =>
    if key.geometryType = key ∧ value.geometryType = value then .map typeAlias key value
    else .map [] key.geometryType value.geometryType
  | .array typeAlias child size =>
    if child.geometryType = child then .array typeAlias child size else .array [] child.geometryType size
  | .varchar typeAlias collation => .varchar typeAlias collation
  | .variant typeAlias => .variant typeAlias
  | .other typeAlias id => .other typeAlias id

/-- A name as the C interface hands it out. -/
def cString (s : List Byte) : List Byte := s.takeWhile (· ≠ 0)

/-- `pdo_duckdb_substitute_geometry`: the new type, if there is one. A TUPLE is no
`DUCKDB_TYPE_STRUCT`. -/
def substituteGeometry : LogicalType → Option LogicalType
  | .geometry _ _ => some (.varchar [] [])
  | .list _ child => child.substituteGeometry.map (.list [])
  | .array _ child size => child.substituteGeometry.map (.array [] · size)
  | .struct _ tuple names child =>
    if tuple ∨ ∀ i, (child i).substituteGeometry = none then none
    else some (.struct [] false (names.map cString) fun i ↦
      ((child (i.cast (List.length_map _))).substituteGeometry).getD (child (i.cast (List.length_map _))))
  | .map _ key value =>
    if key.substituteGeometry = none ∧ value.substituteGeometry = none then none
    else some (.map [] (key.substituteGeometry.getD key) (value.substituteGeometry.getD value))
  | .union _ names member =>
    if ∀ i, (member i).substituteGeometry = none then none
    else some (.union [] (names.map cString) fun i ↦
      ((member (i.cast (List.length_map _))).substituteGeometry).getD (member (i.cast (List.length_map _))))
  | .varchar _ _ | .variant _ | .other _ _ => none

def Nameable : LogicalType → Prop
  | .list _ child | .array _ child _ => child.Nameable
  | .struct _ tuple names child => tuple = false ∧ (∀ name ∈ names, 0 ∉ name) ∧ ∀ i, (child i).Nameable
  | .map _ key value => key.Nameable ∧ value.Nameable
  | .union _ names member => (∀ name ∈ names, 0 ∉ name) ∧ ∀ i, (member i).Nameable
  | .geometry _ _ | .varchar _ _ | .variant _ | .other _ _ => True

theorem geometryType_eq_iff (t : LogicalType) : t.geometryType = t ↔ t.hasGeometry = false := by
  induction t with
  | struct a b names child ih =>
    rw [geometryType]
    split_ifs with h
    · simpa [hasGeometry, ih] using h
    · refine iff_of_false (fun heq ↦ h fun i ↦ ?_) fun hno ↦ h fun i ↦ (ih i).mpr ?_
      · simp only [struct.injEq, heq_eq_eq, true_and] at heq
        exact congrFun heq.2 i
      · simp only [hasGeometry, decide_eq_false_iff_not, not_exists] at hno
        simpa using hno i
  | union a names member ih =>
    rw [geometryType]
    split_ifs with h
    · simpa [hasGeometry, ih] using h
    · refine iff_of_false (fun heq ↦ h fun i ↦ ?_) fun hno ↦ h fun i ↦ (ih i).mpr ?_
      · simp only [union.injEq, heq_eq_eq, true_and] at heq
        exact congrFun heq.2 i
      · simp only [hasGeometry, decide_eq_false_iff_not, not_exists] at hno
        simpa using hno i
  | list a c ih | array a c n ih =>
    rw [geometryType, hasGeometry, ← ih]
    split_ifs with h <;> simp [h]
  | map a k v ihKey ihValue =>
    rw [geometryType, hasGeometry, Bool.or_eq_false_iff, ← ihKey, ← ihValue]
    split_ifs with h
    · simp [h]
    · simp only [map.injEq]
      tauto
  | geometry a c => simp [geometryType, hasGeometry]
  | varchar a c | variant a | other a i => simp [geometryType, hasGeometry]

theorem hasGeometry_geometryType (t : LogicalType) : t.geometryType.hasGeometry = false := by
  induction t with
  | struct a b names child ih =>
    rw [geometryType]
    split_ifs with h
    · rw [← geometryType_eq_iff, geometryType, if_pos h]
    · simp [hasGeometry, ih]
  | union a names member ih =>
    rw [geometryType]
    split_ifs with h
    · rw [← geometryType_eq_iff, geometryType, if_pos h]
    · simp [hasGeometry, ih]
  | list a c ih | array a c n ih =>
    rw [geometryType]
    split_ifs with h
    · rwa [h] at ih
    · exact ih
  | map a k v ihKey ihValue =>
    rw [geometryType]
    split_ifs with h
    · rw [h.1] at ihKey
      rw [h.2] at ihValue
      simp [hasGeometry, ihKey, ihValue]
    · simp [hasGeometry, ihKey, ihValue]
  | geometry a c | varchar a c | variant a | other a i => rfl

theorem cString_eq {s : List Byte} (h : 0 ∉ s) : cString s = s := by
  refine List.takeWhile_eq_self_iff.mpr fun c hc ↦ ?_
  have hne : c ≠ 0 := fun heq ↦ h (heq ▸ hc)
  simpa using hne

theorem map_cString {names : List (List Byte)} (h : ∀ name ∈ names, 0 ∉ name) : names.map cString = names :=
  (List.map_congr_left fun name hname ↦ cString_eq (h name hname)).trans (List.map_id names)

theorem struct_cString {typeAlias : List Byte} {tuple : Bool} {names names' : List (List Byte)} (h : names' = names)
    (child : Fin names.length → LogicalType) :
    struct typeAlias tuple names' (fun i ↦ child (i.cast (congrArg _ h))) = struct typeAlias tuple names child := by
  obtain rfl := h
  rfl

theorem union_cString {typeAlias : List Byte} {names names' : List (List Byte)} (h : names' = names)
    (member : Fin names.length → LogicalType) :
    union typeAlias names' (fun i ↦ member (i.cast (congrArg _ h))) = union typeAlias names member := by
  obtain rfl := h
  rfl

def Agrees (t : LogicalType) : Prop :=
  t.substituteGeometry = if t.geometryType = t then none else some t.geometryType

theorem Agrees.eq_none (h : t.Agrees) : t.substituteGeometry = none ↔ t.geometryType = t := by
  unfold Agrees at h
  rw [h]
  split_ifs with heq <;> simp [heq]

theorem Agrees.getD (h : t.Agrees) : t.substituteGeometry.getD t = t.geometryType := by
  unfold Agrees at h
  rw [h]
  split_ifs with heq
  · exact heq.symm
  · rfl

/-- The driver's substitution is that of the bridge, where names fit the C interface. -/
theorem substituteGeometry_eq (t : LogicalType) (h : t.Nameable) : t.Agrees := by
  induction t with
  | struct a b names child ih =>
    obtain ⟨rfl, hnames, hchild⟩ := h
    have hagrees (i) : (child i).Agrees := ih i (hchild i)
    have hnone := forall_congr' fun i ↦ (hagrees i).eq_none
    by_cases hsame : ∀ i, (child i).geometryType = child i
    · have htype : (struct a false names child).geometryType = struct a false names child := by
        rw [geometryType, if_pos hsame]
      rw [Agrees, if_pos htype, substituteGeometry, if_pos (.inr (hnone.mpr hsame))]
    · have htype : (struct a false names child).geometryType =
          struct [] false names fun i ↦ (child i).geometryType := by rw [geometryType, if_neg hsame]
      have hne : struct [] false names (fun i ↦ (child i).geometryType) ≠ struct a false names child :=
        fun heq ↦ hsame fun i ↦ congrFun (eq_of_heq (struct.inj heq).2.2.2) i
      have hchanged : ¬ ((false : Bool) = true ∨ ∀ i, (child i).substituteGeometry = none) := by
        rw [hnone]
        exact fun h ↦ h.elim Bool.false_ne_true hsame
      rw [Agrees, htype, if_neg hne, substituteGeometry, if_neg hchanged]
      simp only [(hagrees _).getD]
      exact congrArg some (struct_cString (map_cString hnames) fun i ↦ (child i).geometryType)
  | union a names member ih =>
    obtain ⟨hnames, hmember⟩ := h
    have hagrees (i) : (member i).Agrees := ih i (hmember i)
    have hnone := forall_congr' fun i ↦ (hagrees i).eq_none
    by_cases hsame : ∀ i, (member i).geometryType = member i
    · have htype : (union a names member).geometryType = union a names member := by
        rw [geometryType, if_pos hsame]
      rw [Agrees, if_pos htype, substituteGeometry, if_pos (hnone.mpr hsame)]
    · have htype : (union a names member).geometryType =
          union [] names fun i ↦ (member i).geometryType := by rw [geometryType, if_neg hsame]
      have hne : union [] names (fun i ↦ (member i).geometryType) ≠ union a names member :=
        fun heq ↦ hsame fun i ↦ congrFun (eq_of_heq (union.inj heq).2.2) i
      have hchanged : ¬ ∀ i, (member i).substituteGeometry = none := by rwa [hnone]
      rw [Agrees, htype, if_neg hne, substituteGeometry, if_neg hchanged]
      simp only [(hagrees _).getD]
      exact congrArg some (union_cString (map_cString hnames) fun i ↦ (member i).geometryType)
  | list a c ih =>
    have hagrees : c.substituteGeometry = _ := ih h
    unfold Agrees
    rw [substituteGeometry, geometryType, hagrees]
    by_cases hsame : c.geometryType = c <;> simp [hsame]
  | array a c n ih =>
    have hagrees : c.substituteGeometry = _ := ih h
    unfold Agrees
    rw [substituteGeometry, geometryType, hagrees]
    by_cases hsame : c.geometryType = c <;> simp [hsame]
  | map a k v ihKey ihValue =>
    have hkey := ihKey h.1
    have hvalue := ihValue h.2
    have hsub : (map a k v).substituteGeometry = if k.geometryType = k ∧ v.geometryType = v then none
        else some (map [] k.geometryType v.geometryType) := by
      simp only [substituteGeometry, hkey.eq_none, hvalue.eq_none, hkey.getD, hvalue.getD]
    by_cases hsame : k.geometryType = k ∧ v.geometryType = v
    · have htype : (map a k v).geometryType = map a k v := by rw [geometryType, if_pos hsame]
      rw [Agrees, if_pos htype, hsub, if_pos hsame]
    · have htype : (map a k v).geometryType = map [] k.geometryType v.geometryType := by
        rw [geometryType, if_neg hsame]
      have hne : map [] k.geometryType v.geometryType ≠ map a k v := fun heq ↦ hsame (map.inj heq).2
      rw [Agrees, htype, if_neg hne, hsub, if_neg hsame]
  | geometry a c => simp [Agrees, substituteGeometry, geometryType]
  | varchar a c | variant a | other a i => simp [Agrees, substituteGeometry, geometryType]

end LogicalType

end PdoDuckdb.Bridge
