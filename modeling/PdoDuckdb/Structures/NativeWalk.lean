import PdoDuckdb.Structures.JsonWalk
import PdoDuckdb.Structures.Meaning
import PdoDuckdb.Library.Collecting

namespace PdoDuckdb.Structures

open Library Library.Exits Value
open Cells (Scalar Node LeafType htMaxSize)

variable {G : Setting} {Z : Slot → Option Zval} {O : HandleSlot → Bool} {o : Slot} {depth : ℕ}
  {f : Place → Option Zval} {g : Part → Bool} {p : Prop} {B : Bridge}

section Loops

/-- A loop whose turns each find a value, or fail where there is none. -/
theorem each_meets {α : Type} {m : α → Reading PUnit} {F : α → Option Zval} {plain : Prop} {l : List α}
    (State : List Zval → Slots × Surroundings → Prop)
    (hm : ∀ done a rest, l = done ++ a :: rest → ∀ vs : List Zval, vs.length = done.length →
      Meets (State vs) (m a) (fun _ s ↦ ∃ v, (plain → F a = some v) ∧ State (vs ++ [v]) s)
        (Lost G (plain → F a = none))) :
    Meets (State []) (Exits.each m l)
      (fun _ s ↦ ∃ vs, (vs.length = l.length ∧ (plain → l.mapM F = some vs)) ∧ State vs s)
      (Lost G (plain → l.mapM F = none)) := by
  let I (done : List α) (s : Slots × Surroundings) : Prop :=
    ∃ vs, (vs.length = done.length ∧ (plain → done.mapM F = some vs)) ∧ State vs s
  have hrun : Meets (I []) (Exits.each m l) (fun _ ↦ I l) (Lost G (plain → l.mapM F = none)) := by
    refine Meets.each fun done a rest hl ↦ Meets.chosen fun vs hvs ↦ ?_
    refine (hm done a rest hl vs hvs.1).mono (fun _ hs ↦ hs) (fun _ s ↦ ?_) fun e s hs ↦ ?_
    · rintro ⟨v, hv, hs⟩
      exact ⟨vs ++ [v], ⟨by simp [hvs.1], fun hp ↦ Collecting.mapM_concat (hvs.2 hp) (hv hp)⟩, hs⟩
    · have hmem : a ∈ l := by simp [hl]
      exact hs.imp fun h hp ↦ Collecting.mapM_eq_none hmem (h hp)
  exact hrun.pre fun s hs ↦ ⟨[], ⟨rfl, fun _ ↦ rfl⟩, hs⟩

/-- What has been taken and dropped again is as before. -/
theorem taken_dropped {a : Part} (h : g a = false) :
    Function.update (Function.update g a true) a false = g := by
  rw [Function.update_idem, ← h, Function.update_eq_self]

def listed (f : Place → Option Zval) (a : Place) (vs : List Zval) : Place → Option Zval :=
  Function.update f a (some (.list vs))

theorem listed_append (a : Place) (vs : List Zval) (v : Zval) :
    Function.update (listed f a vs) a (some ((Zval.list vs).append v)) = listed f a (vs ++ [v]) := by
  unfold listed
  rw [Function.update_idem, Zval.append_list]

end Loops

section Scalars

variable (hr : Ready Z O depth o) (hd : depth < valueDepth)
include hr hd

def Yields (G : Setting) (Z : Slot → Option Zval) (O : HandleSlot → Bool) (o : Slot) (depth : ℕ)
    (f : Place → Option Zval) (a : Place) (r : Option Zval) (g : Part → Bool) (m : Reading PUnit) : Prop :=
  Meets (At G Z O o depth f g) m
    (fun _ s ↦ ∃ v, r = some v ∧ ∃ g', At G Z O o depth (Function.update f a (some v)) g' s)
    (Lost G (r = none))

theorem valueString_at (a : Place) (ha : f a = none) (hbytes : g (.bytes true) = false) (v : Scalar) :
    Yields G Z O o depth f a (some (renderedZval B v)) g (valueString B depth v (a.slot o depth)) := by
  unfold valueString renderedZval
  refine Meets.bind (take_at hd (.bytes true) hbytes) fun _ ↦ ?_
  cases B.render v with
  | none => exact (setZval_at hr hd a ha rfl).post fun _ s hs ↦ ⟨_, rfl, _, hs⟩
  | some t => exact (setString_at hr hd a ha t).post fun _ s hs ↦ ⟨_, rfl, _, hs⟩

theorem valueGeometry_at (a : Place) (ha : f a = none) (t : List Byte) :
    Yields G Z O o depth f a
      (if zstrMaxLength / 2 < t.length then none else some (.string (geometryText t))) g
      (valueGeometry t (a.slot o depth)) := by
  unfold valueGeometry
  split_ifs with hlong
  · exact fail_meets _ rfl
  · exact (setString_at hr hd a ha _).post fun _ s hs ↦ ⟨_, rfl, _, hs⟩

theorem valueScalar_at (a : Place) (ha : f a = none) (hbytes : g (.bytes true) = false) (v : Scalar) :
    Yields G Z O o depth f a (scalarZval B v) g (valueScalar B depth v (a.slot o depth)) := by
  have hbytes' (t : List Byte) : Yields G Z O o depth f a (some (.string t)) g
      (do take (.bytes true depth); setString (a.slot o depth) t) :=
    Meets.bind (take_at hd (.bytes true) hbytes) fun _ ↦
      (setString_at hr hd a ha t).post fun _ s hs ↦ ⟨_, rfl, _, hs⟩
  have hzval {b : Built} (hb : b.handles = []) :
      Yields G Z O o depth f a (some b.zval) g (setZval (a.slot o depth) b) :=
    (setZval_at hr hd a ha hb).post fun _ s hs ↦ ⟨_, rfl, _, hs⟩
  unfold valueScalar scalarZval
  cases v with
  | bool b => exact hzval rfl
  | integer type n =>
    dsimp only
    split_ifs
    · exact hzval rfl
    · exact valueString_at hr hd a ha hbytes _
  | float bits => exact hzval rfl
  | double bits => exact hzval rfl
  | varchar t => exact hbytes' t
  | blob t => exact hbytes' t
  | geometry t =>
    exact Meets.bind (take_at hd (.bytes true) hbytes) fun _ ↦ valueGeometry_at hr hd a ha t
  | rendered id text => exact valueString_at hr hd a ha hbytes _
  | unknown id => exact fail_meets _ rfl

omit hr hd in
theorem valueCount_meets (count : ℕ) :
    Meets (Holds G Z O) (valueCount count) (fun _ s ↦ count ≤ htMaxSize ∧ Holds G Z O s)
      (Lost G (htMaxSize < count)) := by
  unfold valueCount
  split_ifs with hcount
  · exact Meets.pure fun s hs ↦ ⟨hcount, hs⟩
  · exact fail_meets _ (Nat.lt_of_not_le hcount)

end Scalars

section Variants

variable {child : Option Node → Slot → Reading PUnit} {below : Node → Option Zval}

section Steps

variable (hr : Ready Z O depth o) (hd : depth < valueDepth)
  (hchild : ∀ node, Walks G (depth + 1) (child (some node)) (fun _ v ↦ below node = some v)
    (below node = none))
include hr hd hchild

theorem variantItem_at (out : Option Zval) (vs : List Zval) (member : Option (List Byte) × Node) :
    Meets (At G Z O o depth (listed (Function.update (fun _ ↦ none) .out out) .payload vs) fun _ ↦ false)
      (variantItem child depth member)
      (fun _ s ↦ ∃ v, (True → memberZval below member = some v) ∧ At G Z O o depth
        (listed (Function.update (fun _ ↦ none) .out out) .payload (vs ++ [v])) (fun _ ↦ false) s)
      (Lost G (True → memberZval below member = none)) := by
  obtain ⟨key, node⟩ := member
  unfold variantItem memberZval
  refine Meets.bind (take_at hd .variant rfl) fun _ ↦ ?_
  have hlost : below node = none → True → memberZval below (key, node) = none := by
    intro h _
    cases key <;> simp [memberZval, h]
  have hitem := child_at (f := listed (Function.update (fun _ ↦ none) .out out) .payload vs)
    (g := Function.update (fun _ ↦ false) .variant true) hr hd (hchild node) .item rfl
  refine Meets.bind (lost_mono hitem hlost) fun _ ↦ ?_
  refine Meets.chosen fun v hv ↦ Meets.bind (drop_at hd .variant) fun _ ↦ ?_
  rw [taken_dropped rfl]
  cases key with
  | some key =>
    refine Meets.bind (take_at hd (.bytes false) rfl) fun _ ↦ ?_
    refine Meets.bind (newArray_at hr hd .entry rfl) fun _ ↦ ?_
    refine Meets.bind (insertString_at hr hd .entry rfl rfl (ascii "key") key) fun _ ↦ ?_
    refine Meets.bind (drop_at hd (.bytes false)) fun _ ↦ ?_
    rw [taken_dropped rfl]
    refine Meets.bind (insert_at hr hd .entry .item nofun rfl rfl rfl (ascii "value")) fun _ ↦ ?_
    refine (append_at hr hd .payload .entry nofun rfl rfl).post fun _ s hs ↦ ?_
    rw [stored_entry] at hs
    refine ⟨.entry (.string key) v, fun _ ↦ by simp [hv], hs.of_eq fun a ↦ ?_⟩
    rw [← listed_append]
    cases a <;> rfl
  | none =>
    refine (append_at hr hd .payload .item nofun rfl rfl).post fun _ s hs ↦ ?_
    refine ⟨v, fun _ ↦ hv, hs.of_eq fun a ↦ ?_⟩
    rw [← listed_append]
    cases a <;> rfl

theorem variantContainer_at (type : List Byte) (members : List (Option (List Byte) × Node)) :
    Yields G Z O o depth (fun _ ↦ none) .out
      ((listZval members (memberZval below)).map (.tagged type)) (fun _ ↦ false)
      (variantContainer child depth type members o) := by
  unfold variantContainer listZval
  refine Meets.bind (lost_mono (valueCount_meets members.length) fun h ↦ ?_) fun _ ↦
    Meets.given fun hcount ↦ ?_
  · rw [if_neg (Nat.not_le_of_lt h)]
    rfl
  rw [if_pos hcount]
  refine Meets.bind (tag_at hr hd .out rfl type) fun _ ↦ ?_
  refine Meets.bind (newArray_at hr hd .payload rfl) fun _ ↦ ?_
  let State (vs : List Zval) : Slots × Surroundings → Prop := At G Z O o depth
    (listed (Function.update (fun _ ↦ none) .out (some (.tag type))) .payload vs) fun _ ↦ false
  have hloop := each_meets (l := members) State fun _ a _ _ vs _ ↦
    variantItem_at hr hd hchild (some (.tag type)) vs a
  refine Meets.bind (lost_mono hloop fun h ↦ ?_) fun _ ↦ Meets.chosen fun vs hvs ↦ ?_
  · rw [h trivial]
    rfl
  refine (insert_at hr hd .out .payload nofun rfl rfl rfl (ascii "value")).post fun _ s hs ↦ ?_
  rw [stored_tag] at hs
  refine ⟨.tagged type (.list vs), by rw [hvs.2 trivial]; rfl, _, hs.of_eq fun a ↦ ?_⟩
  cases a <;> rfl

theorem variantImpl_at (node : Option Node) :
    Yields G Z O o depth (fun _ ↦ none) .out (nodeZval B below node) (fun _ ↦ false)
      (variantImpl B child depth node o) := by
  unfold variantImpl nodeZval
  refine Meets.bind bridge_meets fun _ ↦ ?_
  match node with
  | none => exact (setZval_at hr hd .out rfl rfl).post fun _ s hs ↦ ⟨_, rfl, _, hs⟩
  | some .null =>
    refine Meets.bind (tag_at hr hd .out rfl (ascii "NULL")) fun _ ↦ ?_
    refine Meets.bind (setZval_at hr hd .item rfl rfl) fun _ ↦ ?_
    refine (insert_at hr hd .out .item nofun rfl rfl rfl (ascii "value")).post fun _ s hs ↦ ?_
    rw [stored_tag] at hs
    refine ⟨_, rfl, _, hs.of_eq fun a ↦ ?_⟩
    cases a <;> rfl
  | some (.scalar v) =>
    refine Meets.bind (take_at hd .scalar rfl) fun _ ↦ Meets.bind (take_at hd .value rfl) fun _ ↦ ?_
    refine Meets.bind (take_at hd .type rfl) fun _ ↦ Meets.bind (take_at hd (.bytes false) rfl) fun _ ↦ ?_
    refine Meets.bind (tag_at hr hd .out rfl (B.scalarDeclaration v)) fun _ ↦ ?_
    refine Meets.bind (lost_mono (valueScalar_at hr hd .item rfl rfl v) fun h ↦ ?_) fun _ ↦
      Meets.chosen fun x hx ↦ Meets.exists_pre fun g' ↦ ?_
    · exact congrArg (Option.map (Zval.tagged (B.scalarDeclaration v))) h
    have htagged := congrArg (Option.map (Zval.tagged (B.scalarDeclaration v))) hx
    refine (insert_at hr hd .out .item nofun rfl rfl rfl (ascii "value")).post fun _ s hs ↦ ?_
    rw [stored_tag] at hs
    refine ⟨.tagged (B.scalarDeclaration v) x, htagged, _, hs.of_eq fun a ↦ ?_⟩
    cases a <;> rfl
  | some (.array items) =>
    have h := variantContainer_at hr hd hchild (ascii "ARRAY") (items.map fun node ↦ (none, node))
    unfold listZval at h ⊢
    rwa [List.length_map, List.mapM_map] at h
  | some (.object members) =>
    have h := variantContainer_at hr hd hchild (ascii "OBJECT") (members.map fun m ↦ (some m.1, m.2))
    unfold listZval at h ⊢
    rwa [List.length_map, List.mapM_map] at h

end Steps

/-- The reader of a VARIANT at a depth, by induction on the levels that are left. -/
theorem variantBelow_walks (levels depth : ℕ) (hlevels : depth + levels = valueDepth)
    (node : Option Node) :
    Walks G depth (variantBelow B levels depth node) (fun _ v ↦ variantZval B levels node = some v)
      (variantZval B levels node = none) := by
  induction levels generalizing depth node with
  | zero => exact fun Z O o _ ↦ fail_meets _ rfl
  | succ levels ih =>
    have hd : depth < valueDepth := by omega
    refine walks_frame hd fun Z O o hr ↦ ?_
    refine (variantImpl_at hr hd (fun node ↦ ih (depth + 1) (by omega) (some node)) node).post
      fun _ s ↦ ?_
    rintro ⟨v, hv, g', hs⟩
    exact ⟨v, hv, _, g', rfl, hs⟩

theorem variantNative_walks (hd : depth ≤ valueDepth) (node : Option Node) :
    Walks G depth (variantNative B depth node)
      (fun _ v ↦ variantZval B (valueDepth - depth) node = some v)
      (variantZval B (valueDepth - depth) node = none) :=
  variantBelow_walks (valueDepth - depth) depth (Nat.add_sub_cancel' hd) node

end Variants

section Leaves

variable {levels row : ℕ} {path : List ℕ} {data : List Datum} {plain : Prop} {r R : Option Zval}

theorem Yields.filled {m : Reading PUnit} (hm : Yields G Z O o depth (fun _ ↦ none) .out r g m)
    (hR : plain → R = r) :
    Meets (At G Z O o depth (fun _ ↦ none) g) m
      (Filled G Z O o depth fun _ v ↦ plain → R = some v) (Lost G (plain → R = none)) := by
  refine hm.mono (fun _ hs ↦ hs) (fun _ s ↦ ?_) fun _ _ hs ↦ hs.imp fun h hp ↦ (hR hp).trans h
  rintro ⟨v, hv, g', hs⟩
  exact ⟨v, fun hp ↦ (hR hp).trans hv, _, g', rfl, hs⟩

/-- Where nothing is said about the value. -/
theorem filled_of_not {m : Reading PUnit} (hplain : ¬ plain)
    (hm : Meets (At G Z O o depth (fun _ ↦ none) g) m (Filled G Z O o depth fun _ _ ↦ True)
      (Lost G True)) :
    Meets (At G Z O o depth (fun _ ↦ none) g) m
      (Filled G Z O o depth fun _ v ↦ plain → R = some v) (Lost G (plain → R = none)) := by
  refine hm.mono (fun _ hs ↦ hs) (fun _ s ↦ ?_) fun _ _ hs ↦ hs.imp fun _ hp ↦ absurd hp hplain
  rintro ⟨v, -, hs⟩
  exact ⟨v, fun hp ↦ absurd hp hplain, hs⟩

variable (hr : Ready Z O depth o) (hd : depth < valueDepth)
include hr hd

theorem nativeJson_at (t : List Byte) :
    Meets (At G Z O o depth (fun _ ↦ none) g) (nativeJson B depth t o)
      (Filled G Z O o depth fun _ _ ↦ True) (Lost G True) := by
  unfold nativeJson
  refine Meets.bind (tag_at hr hd .out rfl (ascii "JSON")) fun _ ↦ ?_
  refine Meets.bind (child_at hr hd (jsonNode_walks B.decode hd t) .item rfl) fun rest ↦
    Meets.chosen fun v _ ↦ ?_
  split_ifs
  · exact fail_meets _ trivial
  · refine (insert_at hr hd .out .item nofun rfl rfl rfl (ascii "value")).post fun _ s hs ↦ ?_
    exact ⟨_, trivial, _, _, rfl, hs⟩

def datumZval (B : Bridge) : Datum → Option Zval
  | .scalar v => scalarZval B v
  | .variant _ => none

variable (htouched : G.touched path row) (hrow : row < data.length)
include htouched hrow

theorem nativeScalar_at (hvalue : g .value = false) (hscalar : g .scalar = false)
    (hbytes : g (.bytes true) = false) :
    Yields G Z O o depth (fun _ ↦ none) .out (data[row]?.bind (datumZval B)) g
      (nativeScalar B depth path row data o) := by
  unfold nativeScalar
  refine Meets.bind (readRow_meets htouched hrow) fun d ↦ Meets.given fun hdata ↦ ?_
  rw [hdata, Option.bind_some]
  refine Meets.bind (take_at hd .value hvalue) fun _ ↦ ?_
  refine Meets.bind (take_at hd .scalar hscalar) fun _ ↦ ?_
  cases d with
  | scalar v =>
    exact valueScalar_at (f := fun _ ↦ none) (g := Function.update (Function.update g .value true) .scalar true)
      hr hd .out rfl hbytes v
  | variant node => exact fail_meets _ rfl

def typed : Part → Bool := Function.update (fun _ ↦ false) .type true

theorem nativeLeaf_at (hlevels : depth + (levels + 1) = valueDepth) (type : LeafType) :
    Meets (At G Z O o depth (fun _ ↦ none) typed) (nativeLeaf B depth path type data row o)
      (Filled G Z O o depth fun _ v ↦ type ≠ .varchar (ascii "JSON") →
        data[row]?.bind (leafZval B levels type) = some v)
      (Lost G (type ≠ .varchar (ascii "JSON") → data[row]?.bind (leafZval B levels type) = none)) := by
  have hdata : data[row]? = some data[row] := List.getElem?_eq_getElem hrow
  have hscalar (h : ∀ d, leafZval B levels type d = datumZval B d) :
      Meets (At G Z O o depth (fun _ ↦ none) typed) (nativeScalar B depth path row data o)
        (Filled G Z O o depth fun _ v ↦ type ≠ .varchar (ascii "JSON") →
          data[row]?.bind (leafZval B levels type) = some v)
        (Lost G (type ≠ .varchar (ascii "JSON") → data[row]?.bind (leafZval B levels type) = none)) :=
    (nativeScalar_at hr hd htouched hrow rfl rfl rfl).filled fun _ ↦ by rw [funext h]
  unfold nativeLeaf
  cases type with
  | sqlNull =>
    have hnull : Yields G Z O o depth (fun _ ↦ none) .out (some .null) typed (setZval o .null) :=
      (setZval_at hr hd .out rfl rfl).post fun _ s hs ↦ ⟨_, rfl, _, hs⟩
    exact hnull.filled fun _ ↦ by rw [hdata]; rfl
  | variant =>
    refine Meets.bind (readRow_meets htouched hrow) fun d ↦ Meets.given fun hd' ↦ ?_
    refine Meets.bind (take_at hd .variant rfl) fun _ ↦ ?_
    rw [hd', Option.bind_some]
    cases d with
    | variant node =>
      have hbelow : valueDepth - (depth + 1) = levels := by omega
      have hwalk : Walks G (depth + 1) (variantNative B (depth + 1) node) _ _ :=
        variantNative_walks (Nat.succ_le_of_lt hd) node
      rw [hbelow] at hwalk
      refine (lost_mono (child_at hr hd hwalk .out rfl) fun h _ ↦ h).post fun _ s ↦ ?_
      rintro ⟨v, hv, hs⟩
      exact ⟨v, fun _ ↦ hv, _, _, rfl, hs⟩
    | scalar v => exact fail_meets _ fun _ ↦ rfl
  | varchar typeAlias =>
    refine Meets.bind (take_at hd (.bytes false) rfl) fun _ ↦ ?_
    split_ifs with hjson
    · refine filled_of_not (fun h ↦ h (congrArg _ hjson)) ?_
      refine Meets.bind (readRow_meets htouched hrow) fun d ↦ Meets.given fun _ ↦ ?_
      exact nativeJson_at hr hd d.bytes
    · refine Meets.bind (drop_at hd (.bytes false)) fun _ ↦ ?_
      rw [taken_dropped rfl]
      refine hscalar fun d ↦ ?_
      cases d <;> simp [leafZval, datumZval, hjson]
  | geometry =>
    refine Meets.bind (readRow_meets htouched hrow) fun d ↦ Meets.given fun hd' ↦ ?_
    rw [hd', Option.bind_some]
    exact (valueGeometry_at hr hd .out rfl d.bytes).filled fun _ ↦ rfl
  | boolean => exact hscalar fun d ↦ by cases d <;> rfl
  | integer type => exact hscalar fun d ↦ by cases d <;> rfl
  | float => exact hscalar fun d ↦ by cases d <;> rfl
  | double => exact hscalar fun d ↦ by cases d <;> rfl
  | blob => exact hscalar fun d ↦ by cases d <;> rfl
  | other id => exact hscalar fun d ↦ by cases d <;> rfl

end Leaves

section Branches

variable {levels row rowCount offset count childCount : ℕ} {root : Vector} {start : ℕ} {path : List ℕ}
  {call : ChildCall} {child key value : Vector} {below : Vector → ℕ → ℕ → Option Zval} {plain : Prop}
  {R : Option Zval}

/-- What is said of a call that fills its `out`, the value unknown where there are JSON texts. -/
def Fills (G : Setting) (Z : Slot → Option Zval) (O : HandleSlot → Bool) (o : Slot) (depth : ℕ)
    (plain : Prop) (R : Option Zval) (g : Part → Bool) (m : Reading PUnit) : Prop :=
  Meets (At G Z O o depth (fun _ ↦ none) g) m (Filled G Z O o depth fun _ v ↦ plain → R = some v)
    (Lost G (plain → R = none))

/-- The calls one level down read the rows that the value leads to. -/
def CallsWalk (G : Setting) (root : Vector) (start depth : ℕ) (below : Vector → ℕ → ℕ → Option Zval)
    (call : ChildCall) : Prop :=
  ∀ path (vec : Vector) row rowCount, vec.Sized rowCount → rowCount < 0x10000000000000000 →
    Vector.Reached root start path vec row →
    Walks G depth (call path vec row rowCount)
      (fun _ v ↦ vec.Plain → below vec row rowCount = some v)
      (vec.Plain → below vec row rowCount = none)

theorem zip_concat {names : List (List Byte)} {vs : List Zval} {name : List Byte}
    (h : names[vs.length]? = some name) (v : Zval) :
    names.zip (vs ++ [v]) = names.zip vs ++ [(name, v)] := by
  induction vs generalizing names with
  | nil =>
    cases names with
    | nil => cases h
    | cons n names =>
      obtain rfl := Option.some.inj h
      simp
  | cons w vs ih =>
    cases names with
    | nil => cases h
    | cons n names => simpa using ih h

theorem foldl_insert (fields : List (List Byte × Zval)) (entries : List (Key × Zval)) :
    ∃ entries', fields.foldl (fun (a : Zval) field ↦ a.insert field.1 field.2) (.array entries) =
      .array entries' := by
  induction fields generalizing entries with
  | nil => exact ⟨entries, rfl⟩
  | cons field fields ih => exact ih _

section Steps

variable (hr : Ready Z O depth o) (hd : depth < valueDepth)
include hr hd

/-- The loop over the elements of a LIST or an ARRAY, or the entries of a MAP. -/
theorem gather_at {turn : ℕ → Reading PUnit} {F : ℕ → Option Zval}
    (hturn : ∀ i < count, ∀ vs, Meets (At G Z O o depth (listed (fun _ ↦ none) .out vs) typed) (turn i)
      (fun _ s ↦ ∃ v, (plain → F i = some v) ∧
        At G Z O o depth (listed (fun _ ↦ none) .out (vs ++ [v])) typed s)
      (Lost G (plain → F i = none))) :
    Fills G Z O o depth plain (listZval (List.range count) F) typed (do
      valueCount count
      newArray o
      Exits.each turn (List.range count)) := by
  unfold Fills listZval
  rw [List.length_range]
  refine Meets.bind (lost_mono (valueCount_meets count) fun h _ ↦ if_neg (Nat.not_le_of_lt h)) fun _ ↦
    Meets.given fun hsize ↦ ?_
  rw [if_pos hsize]
  refine Meets.bind (newArray_at hr hd .out rfl) fun _ ↦ ?_
  have hloop : Meets (At G Z O o depth (listed (fun _ ↦ none) .out []) typed)
      (Exits.each turn (List.range count))
      (fun _ s ↦ ∃ vs, (vs.length = (List.range count).length ∧
        (plain → (List.range count).mapM F = some vs)) ∧
          At G Z O o depth (listed (fun _ ↦ none) .out vs) typed s)
      (Lost G (plain → (List.range count).mapM F = none)) := by
    refine each_meets (fun vs ↦ At G Z O o depth (listed (fun _ ↦ none) .out vs) typed)
      fun done i rest hl vs _ ↦ hturn i ?_ vs
    have hmem : i ∈ List.range count := by simp [hl]
    exact List.mem_range.mp hmem
  refine (lost_mono hloop fun h hp ↦ congrArg (Option.map Zval.list) (h hp)).post fun _ s ↦ ?_
  rintro ⟨vs, hvs, hs⟩
  exact ⟨.list vs, fun hp ↦ congrArg (Option.map Zval.list) (hvs.2 hp), _, _, rfl, hs⟩

variable (hcall : CallsWalk G root start (depth + 1) below call)
  (hcount : childCount < 0x10000000000000000) (hrange : offset + count ≤ childCount)
include hcall hcount hrange

theorem nativeElements_at (hsized : child.Sized childCount)
    (hreach : ∀ i < count, Vector.Reached root start (path ++ [0]) child (offset + i)) :
    Fills G Z O o depth child.Plain
      (listZval (List.range count) fun i ↦ below child (offset + i) childCount) typed
      (nativeElements call depth path child offset count childCount o) := by
  refine gather_at hr hd fun i hi vs ↦ ?_
  refine Meets.bind (checked_meets (by omega)) fun row ↦ Meets.given fun hrow ↦ ?_
  rw [hrow]
  have hwalk := hcall (path ++ [0]) child (offset + i) childCount hsized hcount (hreach i hi)
  refine Meets.bind (child_at hr hd hwalk .item rfl) fun _ ↦ Meets.chosen fun v hv ↦ ?_
  refine (append_at hr hd .out .item nofun rfl rfl).post fun _ s hs ↦ ⟨v, hv, hs.of_eq fun a ↦ ?_⟩
  rw [← listed_append]
  cases a <;> rfl

theorem nativeEntries_at (hkey : key.Sized childCount) (hvalue : value.Sized childCount)
    (hreachKey : ∀ i < count, Vector.Reached root start (path ++ [0]) key (offset + i))
    (hreachValue : ∀ i < count, Vector.Reached root start (path ++ [1]) value (offset + i)) :
    Fills G Z O o depth (key.Plain ∧ value.Plain)
      (listZval (List.range count) fun i ↦ (below key (offset + i) childCount).bind fun k ↦
        (below value (offset + i) childCount).map (.entry k)) typed
      (nativeEntries call depth path key value offset count childCount o) := by
  refine gather_at hr hd fun i hi vs ↦ ?_
  refine Meets.bind (checked_meets (by omega)) fun row ↦ Meets.given fun hrow ↦ ?_
  rw [hrow]
  have hwalkKey := hcall (path ++ [0]) key (offset + i) childCount hkey hcount (hreachKey i hi)
  have hwalkValue := hcall (path ++ [1]) value (offset + i) childCount hvalue hcount (hreachValue i hi)
  refine Meets.bind (lost_mono (child_at hr hd hwalkKey .key rfl) fun h hp ↦ by rw [h hp.1]; rfl) fun _ ↦
    Meets.chosen fun k hk ↦ ?_
  refine Meets.bind (lost_mono (child_at hr hd hwalkValue .item rfl) fun h hp ↦ ?_) fun _ ↦
    Meets.chosen fun v hv ↦ ?_
  · rw [hk hp.1, h hp.2]
    rfl
  refine Meets.bind (newArray_at hr hd .entry rfl) fun _ ↦ ?_
  refine Meets.bind (insert_at hr hd .entry .key nofun rfl rfl rfl (ascii "key")) fun _ ↦ ?_
  refine Meets.bind (insert_at hr hd .entry .item nofun rfl rfl rfl (ascii "value")) fun _ ↦ ?_
  refine (append_at hr hd .out .entry nofun rfl rfl).post fun _ s hs ↦ ?_
  rw [stored_entry] at hs
  refine ⟨.entry k v, fun hp ↦ by rw [hk hp.1, hv hp.2]; rfl, hs.of_eq fun a ↦ ?_⟩
  rw [← listed_append]
  cases a <;> rfl

end Steps

section Fields

variable {tuple : Bool} {names : List (List Byte)} {fields : Fin names.length → Vector}

theorem fieldsZval_table (tuple : Bool) (names : List (List Byte)) (vs : List Zval) :
    ∃ entries, fieldsZval tuple names vs = .array entries := by
  unfold fieldsZval
  split_ifs
  · exact ⟨_, rfl⟩
  · exact foldl_insert (names.zip vs) []

def fielded (tuple : Bool) (names : List (List Byte)) (vs : List Zval) : Place → Option Zval :=
  Function.update (fun _ ↦ none) .out (some (fieldsZval tuple names vs))

variable (hr : Ready Z O depth o) (hd : depth < valueDepth)
  (hcall : CallsWalk G root start (depth + 1) below call)
  (hcount : rowCount < 0x10000000000000000)
include hr hd hcall hcount

theorem nativeField_at (i : Fin names.length) (hsized : (fields i).Sized rowCount)
    (hreach : Vector.Reached root start (path ++ [i.val]) (fields i) row) {vs : List Zval}
    (hvs : vs.length = i.val) :
    Meets (At G Z O o depth (fielded tuple names vs) typed)
      (nativeField call depth path tuple row rowCount o (names.get i) i (fields i))
      (fun _ s ↦ ∃ v, ((fields i).Plain → below (fields i) row rowCount = some v) ∧
        At G Z O o depth (fielded tuple names (vs ++ [v])) typed s)
      (Lost G ((fields i).Plain → below (fields i) row rowCount = none)) := by
  have hwalk := hcall (path ++ [i.val]) (fields i) row rowCount hsized hcount hreach
  unfold nativeField
  refine Meets.bind (child_at hr hd hwalk .item rfl) fun _ ↦ Meets.chosen fun v hv ↦ ?_
  cases tuple with
  | true =>
    refine (append_at hr hd .out .item nofun rfl rfl).post fun _ s hs ↦ ⟨v, hv, hs.of_eq fun a ↦ ?_⟩
    have happend := Zval.append_list vs v
    cases a with
    | out => exact congrArg some happend
    | item => rfl
    | key => rfl
    | entry => rfl
    | payload => rfl
  | false =>
    obtain ⟨entries, hentries⟩ := fieldsZval_table false names vs
    have hout : Function.update (fielded false names vs) .item (some v) .out = some (.array entries) :=
      congrArg some hentries
    refine Meets.bind (take_at hd (.bytes false) rfl) fun _ ↦ ?_
    refine Meets.bind (insert_at hr hd .out .item nofun hout rfl rfl (names.get i)) fun _ ↦ ?_
    refine (drop_at hd (.bytes false)).post fun _ s hs ↦ ?_
    rw [taken_dropped rfl] at hs
    refine ⟨v, hv, hs.of_eq fun a ↦ ?_⟩
    have hname : names[vs.length]? = some (names.get i) := by simp [hvs]
    have hfields : fieldsZval false names (vs ++ [v]) = (Zval.array entries).insert (names.get i) v := by
      rw [← hentries]
      simp [fieldsZval, zip_concat hname]
    cases a with
    | out => exact congrArg some hfields.symm
    | item => rfl
    | key => rfl
    | entry => rfl
    | payload => rfl

theorem nativeStruct_at (hsized : ∀ i, (fields i).Sized rowCount)
    (hreach : ∀ i : Fin names.length, Vector.Reached root start (path ++ [i.val]) (fields i) row) :
    Fills G Z O o depth (∀ i, (fields i).Plain)
      (structZval tuple names fun i ↦ below (fields i) row rowCount) typed (do
        valueCount names.length
        bridge
        newArray o
        Exits.each (fun i ↦ nativeField call depth path tuple row rowCount o (names.get i) i (fields i))
          (List.finRange names.length)) := by
  unfold Fills structZval
  refine Meets.bind (lost_mono (valueCount_meets names.length) fun h _ ↦ if_neg (Nat.not_le_of_lt h))
    fun _ ↦ Meets.given fun hsize ↦ ?_
  rw [if_pos hsize]
  have hstart : fieldsZval tuple names [] = .array [] := by cases tuple <;> simp [fieldsZval, Zval.list]
  have hloop : Meets (At G Z O o depth (fielded tuple names []) typed)
      (Exits.each (fun i ↦ nativeField call depth path tuple row rowCount o (names.get i) i (fields i))
        (List.finRange names.length))
      (fun _ s ↦ ∃ vs, (vs.length = (List.finRange names.length).length ∧
        ((∀ i, (fields i).Plain) → (List.finRange names.length).mapM
          (fun i ↦ below (fields i) row rowCount) = some vs)) ∧
            At G Z O o depth (fielded tuple names vs) typed s)
      (Lost G ((∀ i, (fields i).Plain) → (List.finRange names.length).mapM
        (fun i ↦ below (fields i) row rowCount) = none)) := by
    refine each_meets (fun vs ↦ At G Z O o depth (fielded tuple names vs) typed)
      fun done i rest hl vs hvs ↦ ?_
    have hi : vs.length = i.val := by
      have hget : (List.finRange names.length)[done.length]? = some i := by simp [hl]
      obtain ⟨hlt, hget⟩ := List.getElem?_eq_some_iff.mp hget
      rw [List.getElem_finRange] at hget
      rw [hvs, ← hget]
      rfl
    refine (lost_mono (nativeField_at hr hd hcall hcount i (hsized i) (hreach i) hi) fun h hp ↦
      h (hp i)).post fun _ s ↦ ?_
    rintro ⟨v, hv, hs⟩
    exact ⟨v, fun hp ↦ hv (hp i), hs⟩
  refine Meets.bind bridge_meets fun _ ↦ Meets.bind (newArray_at hr hd .out rfl) fun _ ↦ ?_
  rw [← hstart]
  refine (lost_mono hloop fun h hp ↦ congrArg (Option.map (fieldsZval tuple names)) (h hp)).post
    fun _ s ↦ ?_
  rintro ⟨vs, hvs, hs⟩
  exact ⟨fieldsZval tuple names vs, fun hp ↦ congrArg (Option.map (fieldsZval tuple names)) (hvs.2 hp),
    _, _, rfl, hs⟩

end Fields

theorem array_fits {n size : ℕ} (h : ¬ (size ≠ 0 ∧ 0xffffffffffffffff / size < n)) :
    n * size < 0x10000000000000000 := by
  by_cases hsize : size = 0
  · rw [hsize, Nat.mul_zero]
    decide
  · have hle : n ≤ 0xffffffffffffffff / size := Nat.le_of_not_lt fun hlt ↦ h ⟨hsize, hlt⟩
    have hmul := (Nat.le_div_iff_mul_le (Nat.pos_of_ne_zero hsize)).mp hle
    omega

theorem not_validAt_false {vec : Vector} (hvalid : vec.ValidAt row) :
    (vec.validity.any fun l ↦ l[row]? = some false) = false := by
  cases hvalidity : vec.validity with
  | none => rfl
  | some l => simp [hvalid l hvalidity]

theorem takeType_at (hd : depth < valueDepth) (hfree : g .type = false) :
    Meets (At G Z O o depth f g) (takeType depth)
      (fun _ ↦ At G Z O o depth f (Function.update g .type true)) (Lost G p) := by
  intro s hs
  have htake : Ends _ _ (take (.type depth) s) := take_at (p := p) hd .type hfree s hs
  unfold takeType
  generalize take (.type depth) s = r at htake ⊢
  match r, htake with
  | (.ok _, s), hs => exact hs
  | (.error (.failed _), s), hs => exact ⟨hs.balanced, nofun, hs.granted⟩
  | (.error .exhausted, s), hs => exact hs
  | (.error .bailout, s), hs => exact hs
  | (.error .outOfFrames, s), hs => exact hs
  | (.error .outOfRows, s), hs => exact hs
  | (.error .wrapped, s), hs => exact hs
  | (.error .unending, s), hs => exact hs

section Impl

variable {vec : Vector} (hG : ∀ path row, Vector.Touched root start path row → G.touched path row)
  (hr : Ready Z O depth o) (hd : depth < valueDepth)
  (hcount : rowCount < 0x10000000000000000) (hrow : row < rowCount) (hsized : vec.Sized rowCount)
  (hreach : Vector.Reached root start path vec row)
include hG hr hd hcount hrow hsized hreach

omit hr hd hcount in
theorem readValidity_meets : Meets (Holds G Z O) (readValidity path vec row)
    (fun valid s ↦ (if valid then vec.ValidAt row else ∃ l ∈ vec.validity, l[row]? = some false) ∧
      Holds G Z O s) (Lost G p) := by
  unfold readValidity
  cases hvalidity : vec.validity with
  | none =>
    refine Meets.pure fun s hs ↦ ⟨?_, hs⟩
    rw [if_pos rfl]
    intro l hl
    rw [hvalidity] at hl
    cases hl
  | some l =>
    have hlen : row < l.length := by
      rw [hsized.validity l hvalidity]
      exact hrow
    refine (readRow_meets (hG path row (.vector hreach)) hlen).post fun valid s hs ↦ ⟨?_, hs.2⟩
    cases valid with
    | true =>
      intro l' hl'
      rw [hvalidity] at hl'
      obtain rfl := Option.some.inj hl'
      exact hs.1
    | false => exact ⟨l, rfl, hs.1⟩

variable (hvalid : vec.ValidAt row) (hlevels : depth + (levels + 1) = valueDepth)
  (hcall : CallsWalk G root start (depth + 1) below call)
include hvalid hlevels hcall

theorem nativeBranch_at :
    Fills G Z O o depth vec.Plain (branchZval B levels below row rowCount vec) typed
      (nativeBranch B call depth path row rowCount o vec) := by
  have htouched : G.touched path row := hG path row (.vector hreach)
  cases vec with
  | leaf type validity data => exact nativeLeaf_at hr hd htouched (hsized.2 ▸ hrow) hlevels type
  | list validity entries size child =>
    refine Meets.bind (readRow_meets htouched (hsized.2.1 ▸ hrow)) fun entry ↦ Meets.given fun hentry ↦ ?_
    rw [branchZval, hentry, Option.bind_some]
    unfold listRange rangeZval
    split_ifs with hrange
    · exact fail_meets _ fun _ ↦ rfl
    · exact nativeElements_at hr hd hcall size.toNat_lt (by omega) hsized.2.2
        fun i hi ↦ .list hreach hvalid hentry hi
  | map validity entries size key value =>
    refine Meets.bind (readRow_meets htouched (hsized.2.1 ▸ hrow)) fun entry ↦ Meets.given fun hentry ↦ ?_
    rw [branchZval, hentry, Option.bind_some]
    unfold listRange rangeZval
    split_ifs with hrange
    · exact fail_meets _ fun _ ↦ rfl
    · exact nativeEntries_at hr hd hcall size.toNat_lt (by omega) hsized.2.2.1 hsized.2.2.2
        (fun i hi ↦ .key hreach hvalid hentry hi) fun i hi ↦ .value hreach hvalid hentry hi
  | array validity size child =>
    rw [nativeBranch, branchZval]
    split_ifs with hover
    · exact fail_meets _ fun _ ↦ rfl
    · have hproduct : rowCount * size.toNat < 0x10000000000000000 := array_fits hover
      have hbound : row * size.toNat + size.toNat ≤ rowCount * size.toNat := by
        rw [← Nat.succ_mul]
        exact Nat.mul_le_mul_right size.toNat hrow
      refine Meets.bind (checked_meets (by omega)) fun offset ↦ Meets.given fun hoffset ↦ ?_
      refine Meets.bind (checked_meets hproduct) fun childCount ↦ Meets.given fun hchildCount ↦ ?_
      rw [hoffset, hchildCount]
      exact nativeElements_at hr hd hcall hproduct hbound hsized.2 fun i hi ↦ .array hreach hvalid hi
  | struct validity tuple names child =>
    exact nativeStruct_at hr hd hcall hcount hsized.2 fun i ↦ .struct i hreach hvalid
  | union validity tags names member =>
    refine Meets.bind (readRow_meets (hG _ row (.tags hreach hvalid)) (hsized.2.1 ▸ hrow)) fun tag ↦
      Meets.given fun htag ↦ ?_
    rw [branchZval, htag, Option.bind_some]
    split_ifs with hbound
    · have hwalk := hcall (path ++ [tag.toNat + 1]) (member ⟨tag.toNat, hbound⟩) row rowCount
        (hsized.2.2 _) hcount (.union ⟨tag.toNat, hbound⟩ hreach hvalid (by rw [htag]; rfl))
      refine Meets.bind (take_at hd (.bytes false) rfl) fun _ ↦ ?_
      refine Meets.bind (newArray_at hr hd .out rfl) fun _ ↦ ?_
      refine Meets.bind (insertString_at hr hd .out rfl rfl (ascii "tag") _) fun _ ↦ ?_
      refine Meets.bind (lost_mono (child_at hr hd hwalk .item rfl) fun h hp ↦ ?_) fun _ ↦
        Meets.chosen fun v hv ↦ ?_
      · rw [h (hp _)]
        rfl
      refine (insert_at hr hd .out .item (by decide) rfl rfl rfl (ascii "value")).post fun _ s hs ↦ ?_
      exact ⟨_, fun hp ↦ congrArg (Option.map _) (hv (hp _)), _, _, rfl, hs⟩
    · exact fail_meets _ fun _ ↦ rfl

end Impl

section Walk

variable (hG : ∀ path row, Vector.Touched root start path row → G.touched path row)
include hG

theorem nativeImpl_at {vec : Vector} (hr : Ready Z O depth o) (hd : depth < valueDepth)
    (hlevels : depth + (levels + 1) = valueDepth)
    (hcall : CallsWalk G root start (depth + 1) (nativeZval B levels) call)
    (hsized : vec.Sized rowCount) (hcount : rowCount < 0x10000000000000000)
    (hreach : Vector.Reached root start path vec row) :
    Meets (At G Z O o depth (fun _ ↦ none) fun _ ↦ false) (nativeImpl B call depth path vec row rowCount o)
      (Filled G Z O o depth fun _ v ↦ vec.Plain → nativeZval B (levels + 1) vec row rowCount = some v)
      (Lost G (vec.Plain → nativeZval B (levels + 1) vec row rowCount = none)) := by
  unfold nativeImpl nativeZval
  split_ifs with hrow hnull
  · exact fail_meets _ fun _ ↦ rfl
  all_goals
    have hrow := Nat.lt_of_not_le hrow
    refine Meets.bind (readValidity_meets hG hrow hsized hreach) fun valid ↦ Meets.given fun hvalid ↦ ?_
    cases valid
  · refine (setZval_at hr hd .out rfl rfl).post fun _ s hs ↦ ⟨.null, fun _ ↦ rfl, _, _, rfl, hs⟩
  · rw [not_validAt_false hvalid] at hnull
    cases hnull
  · obtain ⟨l, hl, hfalse⟩ := hvalid
    rw [hl] at hnull
    simp [hfalse] at hnull
  · refine Meets.bind (takeType_at hd rfl) fun _ ↦ ?_
    exact nativeBranch_at hG hr hd hcount hrow hsized hreach hvalid hlevels hcall

/-- The builder of native structures at a depth, by induction on the levels that are left. -/
theorem nativeBelow_walks (levels depth : ℕ) (hlevels : depth + levels = valueDepth) :
    CallsWalk G root start depth (nativeZval B levels) (nativeBelow B levels depth) := by
  induction levels generalizing depth with
  | zero => exact fun path vec row rowCount _ _ _ Z O o _ ↦ fail_meets _ fun _ ↦ rfl
  | succ levels ih =>
    have hd : depth < valueDepth := by omega
    intro path vec row rowCount hsized hcount hreach
    refine walks_frame hd fun Z O o hr ↦ ?_
    exact nativeImpl_at hG hr hd hlevels (ih (depth + 1) (by omega)) hsized hcount hreach

end Walk

end Branches

end PdoDuckdb.Structures
