import PdoDuckdb.Cells.VariantBuilding
import PdoDuckdb.Cells.Building
import PdoDuckdb.Library.Pointwise

namespace PdoDuckdb.Cells

open Library Library.Exits Value

variable {engine : Engine} {H : Heap} {argpos depth levels : ℕ} {z : Zval} {v : Native}
  {M : ℕ → Memory} {hs base : List Handle} {ss : List StringHandle} {w : World} {p : Prop}

def longScalar (engine : Engine) (l : Int64) : LeafType → Scalar
  | .boolean => .bool (l ≠ 0)
  | .integer type => .integer type l.toInt
  | .float => .float (engine.floatOfLong l)
  | .double => .double (engine.doubleOfLong l)
  | _ => .integer .bigint l.toInt

def LeafType.Shape (engine : Engine) (H : Heap) (type : LeafType) (z : Zval) (v : Native) : Prop :=
  match H.deref z with
  | .null => v = .null
  | .bool b => v = .scalar (.bool b)
  | .long l => v = .scalar (longScalar engine l type)
  | .double bits => v = .scalar (.double bits)
  | .string s => v = .scalar (if type = .blob then .blob s else .varchar s)
  | .array _ | .object _ _ =>
    type = .variant ∧ ∃ n node, H.unfold engine n z = some node ∧ v = node.native
  | _ => False

def Desc.Shape (engine : Engine) (H : Heap) : Desc → Zval → Native → Prop
  | .leaf type => type.Shape engine H
  | .list child => fun z v ↦ (H.deref z = .null ∧ v = .null) ∨
      ∃ table vs, H.deref z = .array table ∧ (H.table table).isList ∧ v = .list vs ∧
        List.Forall₂ (fun e v ↦ child.Shape engine H e.2 v) (H.table table).entries vs
  | .array child size => fun z v ↦ (H.deref z = .null ∧ v = .null) ∨
      ∃ table vs, H.deref z = .array table ∧ (H.table table).isList ∧ v = .array vs ∧
        vs.length = size ∧
        List.Forall₂ (fun e v ↦ child.Shape engine H e.2 v) (H.table table).entries vs
  | .struct tuple names _ child => fun z v ↦ (H.deref z = .null ∧ v = .null) ∨
      ∃ table vs, H.deref z = .array table ∧ v = .struct vs ∧
        (if tuple then (H.table table).isList ∧ (H.table table).entries.length = names.length
        else ((H.table table).entries.map Prod.fst).Perm (names.map Key.ofName)) ∧
        List.Forall₂ (fun i v ↦ ∃ field,
          (H.table table).find (fieldKey tuple (names.get i) i) = some field ∧
            (child i).Shape engine H field v) (List.finRange names.length) vs
  | .map key value => fun z v ↦ (H.deref z = .null ∧ v = .null) ∨
      ∃ table pairs, H.deref z = .array table ∧ v = .map pairs ∧
        List.Forall₂ (fun e p ↦ key.Shape engine H (keySlot e.1) p.1 ∧ value.Shape engine H e.2 p.2)
          (H.table table).entries pairs

section Leaves

/-- The casts of the source keep every integer that is in range. -/
theorem IntegerType.cast_of_inRange {type : IntegerType} {l : Int64}
    (h : type.inRange l.toInt) : type.cast l.toInt = l.toInt := by
  have hmin := l.le_toInt
  have hmax := l.toInt_lt
  cases type <;> simp only [inRange, cast, Bool.and_eq_true, decide_eq_true_eq, Int.bmod_def] at h ⊢ <;>
    omega

theorem LeafType.makeLong_eq {type : LeafType} {l : Int64} (h : validateIntegerRange l type) :
    makeLong engine l type = longScalar engine l type := by
  cases type with
  | integer type => exact congrArg _ (IntegerType.cast_of_inRange h)
  | _ => rfl

theorem makeLeaf_shape {type : LeafType} (h : makeLeaf engine (H.deref z) type argpos = .value v) :
    type.Shape engine H z v := by
  unfold LeafType.Shape
  cases hz : H.deref z with
  | null | bool _ | double _ =>
    rw [hz] at h
    cases h
    rfl
  | long l =>
    rw [hz] at h
    simp only [makeLeaf] at h
    split at h
    · rename_i hrange
      cases h
      rw [LeafType.makeLong_eq hrange]
    · cases h
  | string s =>
    rw [hz] at h
    simp only [makeLeaf] at h
    split_ifs at h with hblob hvalid
    · cases h
      simp only [if_pos hblob]
    · cases h
      simp only [if_neg hblob]
  | array _ | object _ _ | resource | reference _ =>
    rw [hz] at h
    cases h

theorem LeafType.shape_null {type : LeafType} (hz : H.deref z = .null) : type.Shape engine H z .null := by
  unfold Shape
  rw [hz]

theorem Desc.shape_null {t : Desc} (hz : H.deref z = .null) : t.Shape engine H z .null := by
  cases t with
  | leaf type => exact LeafType.shape_null hz
  | list _ | array _ _ | struct _ _ _ _ | map _ _ => exact .inl ⟨hz, rfl⟩

/-- What a call of `pdo_duckdb_build_value` does. -/
def BuildsShape (engine : Engine) (H : Heap) (z : Zval) (t : Desc) (m : Exits Stop World Handle) :
    Prop :=
  ∀ M hs ss, Meets (·.Owes M hs ss) m (fun h w ↦ t.Shape engine H z h.2 ∧ w.Owes M (h :: hs) ss)
    (Lost M True hs ss)

theorem refuse_buildsShape {t : Desc} {kind : ErrorClass} {message : String} :
    BuildsShape engine H z t (refuse kind message) :=
  fun _ _ _ ↦ refuse_meets trivial

theorem buildPlain_buildsShape {t : Desc} :
    BuildsShape engine H z t (buildPlain engine argpos (H.deref z) t) := by
  intro M hs ss
  unfold buildPlain
  split
  · rename_i hz
    exact create_meets.post fun h w hw ↦ ⟨hw.1 ▸ Desc.shape_null hz, hw.2⟩
  · unfold Leaf.build
    split
    · rename_i v hv
      exact create_meets.post fun h w hw ↦ ⟨hw.1 ▸ makeLeaf_shape hv, hw.2⟩
    · exact refuse_meets trivial
    · exact refuse_meets trivial
  · exact refuse_meets trivial

end Leaves

section Inputs

variable {keys values : Option (List Handle)} {ks vs : List Handle} {h : Handle}

structure Stocked (M : ℕ → Memory) (base : List Handle) (ss : List StringHandle)
    (keys values : Option (List Handle)) (hs : List Handle) (s : CellInput × World) : Prop where
  input : s.1 = ⟨keys, values⟩
  owes : s.2.Owes M (hs ++ ((CellInput.mk keys values).held ++ base)) ss

def LeftIn (M : ℕ → Memory) (base : List Handle) (ss : List StringHandle) (e : Stop)
    (s : CellInput × World) : Prop :=
  Lost M True (s.1.held ++ base) ss e s.2

theorem within_input_meets {α : Type} {m : Exits Stop World α} {Q : α → World → Prop}
    (hm : Meets (·.Owes M ((CellInput.mk keys values).held ++ base) ss) m Q
      (Lost M True ((CellInput.mk keys values).held ++ base) ss)) :
    Meets (Stocked M base ss keys values []) (within m) (fun a s ↦ s.1 = ⟨keys, values⟩ ∧ Q a s.2)
      (LeftIn M base ss) := by
  refine .within fun input ↦ .assume (p := input = ⟨keys, values⟩) (fun w hw ↦ hw.input) fun hi ↦ ?_
  refine hm.mono (fun w hw ↦ hw.owes) (fun a w hw ↦ ⟨hi, hw⟩) fun e w hw ↦ ?_
  rwa [← hi] at hw

theorem modifyInput_meets {g : CellInput → CellInput} {keys' values' : Option (List Handle)}
    {hs hs' : List Handle} {R : Stop → CellInput × World → Prop}
    (hg : g ⟨keys, values⟩ = ⟨keys', values'⟩)
    (hperm : (hs ++ (CellInput.mk keys values).held).Perm (hs' ++ (CellInput.mk keys' values').held)) :
    Meets (Stocked M base ss keys values hs) (modifyInput g)
      (fun _ ↦ Stocked M base ss keys' values' hs') R := by
  refine .step fun s hs ↦ ⟨?_, hs.owes.perm ?_ (.refl _)⟩
  · rw [hs.input, hg]
  · simpa only [List.append_assoc] using hperm.append_right base

theorem openKeys_meets : Meets (Stocked M base ss none values []) openKeys
    (fun _ ↦ Stocked M base ss (some []) values []) (LeftIn M base ss) := by
  have hopen : Meets (Stocked M base ss none values []) (modifyInput fun i ↦ { i with keys := some [] })
      (fun _ ↦ Stocked M base ss (some []) values []) (LeftIn M base ss) := modifyInput_meets rfl (.refl _)
  exact (within_input_meets allocate_meets).bind fun _ ↦ hopen.pre fun s hs ↦ ⟨hs.1, hs.2⟩

theorem openValues_meets : Meets (Stocked M base ss keys none []) openValues
    (fun _ ↦ Stocked M base ss keys (some []) []) (LeftIn M base ss) := by
  have hopen : Meets (Stocked M base ss keys none []) (modifyInput fun i ↦ { i with values := some [] })
      (fun _ ↦ Stocked M base ss keys (some []) []) (LeftIn M base ss) := modifyInput_meets rfl (.refl _)
  exact (within_input_meets allocate_meets).bind fun _ ↦ hopen.pre fun s hs ↦ ⟨hs.1, hs.2⟩

theorem pushKey_meets {R : Stop → CellInput × World → Prop} :
    Meets (Stocked M base ss (some ks) values [h]) (pushKey h)
      (fun _ ↦ Stocked M base ss (some (ks ++ [h])) values []) R := by
  refine modifyInput_meets rfl ?_
  simpa [CellInput.held] using (List.perm_middle (a := h)).symm

theorem pushValue_meets {R : Stop → CellInput × World → Prop} :
    Meets (Stocked M base ss keys (some vs) [h]) (pushValue h)
      (fun _ ↦ Stocked M base ss keys (some (vs ++ [h])) []) R := by
  refine modifyInput_meets rfl ?_
  have hperm : ([h] ++ (keys.getD [] ++ vs)).Perm ((keys.getD [] ++ vs) ++ [h]) := List.perm_append_comm
  simpa [CellInput.held] using hperm

/-- A value built for the input. -/
theorem child_meets {y : Zval} {t : Desc} {m : Exits Stop World Handle} (hm : BuildsShape engine H y t m) :
    Meets (Stocked M base ss keys values []) (within m)
      (fun h s ↦ t.Shape engine H y h.2 ∧ Stocked M base ss keys values [h] s) (LeftIn M base ss) :=
  (within_input_meets (hm _ _ _)).post fun _ _ hs ↦ ⟨hs.2.1, hs.1, hs.2.2⟩

theorem createNested_meets {t : Desc} {make : List Native → List Native → Native} {message : String} :
    Meets (Stocked M base ss keys values []) (createNested engine t make message)
      (fun h s ↦ h.2 = make ((keys.getD []).map Prod.snd) ((values.getD []).map Prod.snd) ∧
        Stocked M base ss keys values [h] s)
      (LeftIn M base ss) := by
  intro s hs
  unfold createNested
  rw [hs.input]
  refine ((within_input_meets (Q := fun h w ↦ h.2 = make ((keys.getD []).map Prod.snd)
    ((values.getD []).map Prod.snd) ∧ w.Owes M (h :: ((CellInput.mk keys values).held ++ base)) ss)
      ?_).post fun h s hs ↦ ⟨hs.2.1, hs.1, hs.2.2⟩) s hs
  refine (useValues_meets fun h hh ↦ List.mem_append_left base hh).bind fun _ ↦ ?_
  split
  · exact create_meets
  · exact refuse_meets trivial

end Inputs

section Containers

variable {child : Zval → Desc → Exits Stop World Handle} {table : Table} {t : Desc} {message : String}

theorem refuse_input_meets {α : Type} {kind : ErrorClass} {keys values : Option (List Handle)}
    {Q : α → CellInput × World → Prop} :
    Meets (Stocked M base ss keys values []) (within (refuse kind message)) Q (LeftIn M base ss) :=
  (within_input_meets (refuse_meets (Q := fun _ _ ↦ False) trivial)).post fun _ _ hs ↦ hs.2.elim

def Container (M : ℕ → Memory) (base : List Handle) (ss : List StringHandle) (Q : Native → Prop)
    (m : CellBuilding Handle) : Prop :=
  Meets (Stocked M base ss none none []) m
    (fun h s ↦ Q h.2 ∧ s.2.Owes M (h :: (s.1.held ++ base)) ss) (LeftIn M base ss)

theorem Stocked.owes_held {keys values : Option (List Handle)} {s : CellInput × World}
    (h : Stocked M base ss keys values hs s) : s.2.Owes M (hs ++ (s.1.held ++ base)) ss :=
  h.input ▸ h.owes

/-- A loop that builds one value for each member. -/
theorem each_value_meets {α : Type} {f : α → CellBuilding PUnit} {l : List α} {R : α → Native → Prop}
    (hf : ∀ a ∈ l, ∀ vs, Meets (Stocked M base ss none (some vs) []) (f a)
      (fun _ s ↦ ∃ h : Handle, R a h.2 ∧ Stocked M base ss none (some (vs ++ [h])) [] s) (LeftIn M base ss)) :
    Meets (Stocked M base ss none (some []) []) (each f l)
      (fun _ s ↦ ∃ vs, List.Forall₂ R l (vs.map Prod.snd) ∧ Stocked M base ss none (some vs) [] s)
      (LeftIn M base ss) := by
  let I := fun (done : List α) s ↦ ∃ vs : List Handle,
    List.Forall₂ R done (vs.map Prod.snd) ∧ Stocked M base ss none (some vs) [] s
  refine (Meets.each (I := I) fun done a rest hsplit ↦ ?_).pre fun s hs ↦ ⟨[], .nil, hs⟩
  have ha : a ∈ l := hsplit ▸ List.mem_append_right done List.mem_cons_self
  refine .exists_pre fun vs ↦ .assume (fun _ hs ↦ hs.1) fun hvs ↦ Meets.pre ?_ fun _ hs ↦ hs.2
  refine (hf a ha vs).post fun _ s ⟨h, hR, hs⟩ ↦ ⟨vs ++ [h], ?_, hs⟩
  rw [List.map_append, List.map_singleton]
  exact List.rel_append hvs (.cons hR .nil)

theorem buildList_meets (hchild : ∀ y t, BuildsShape engine H y t (child y t)) {childDesc : Desc}
    {want : Option ℕ} : Container M base ss
      (fun v ↦ ∃ vs, v = (if want.isSome then .array vs else .list vs) ∧ table.isList ∧
        (∀ n ∈ want, vs.length = n) ∧
          List.Forall₂ (fun e v ↦ childDesc.Shape engine H e.2 v) table.entries vs)
      (buildList child engine argpos t childDesc want table) := by
  unfold Container buildList
  split
  · rename_i hlist
    refine openValues_meets.bind fun _ ↦ ?_
    split
    · exact refuse_input_meets
    · rename_i hwant
      refine (each_value_meets (R := fun e v ↦ childDesc.Shape engine H e.2 v) fun e _ vs ↦
        (child_meets (hchild e.2 childDesc)).bind fun h ↦ ?_).bind fun _ ↦ ?_
      · refine .assume (fun _ hs ↦ hs.1) fun hshape ↦ Meets.pre ?_ fun _ hs ↦ hs.2
        exact pushValue_meets.post fun _ s hs ↦ ⟨h, hshape, hs⟩
      · refine .exists_pre fun vs ↦ .assume (fun _ hs ↦ hs.1) fun hvs ↦ Meets.pre ?_ fun _ hs ↦ hs.2
        refine createNested_meets.post fun h s hs ↦ ⟨⟨vs.map Prod.snd, hs.1, hlist, ?_, hvs⟩, hs.2.owes_held⟩
        intro n hn
        rw [← hvs.length_eq]
        by_contra hne
        rw [Option.mem_def.mp hn] at hwant
        exact hwant (decide_eq_true (Ne.symm hne))
  · exact refuse_input_meets

theorem Table.mem_keys_of_find {k : Key} {y : Zval} (h : table.find k = some y) :
    k ∈ table.entries.map Prod.fst := by
  obtain ⟨l, r, hsplit, -⟩ := List.lookup_eq_some_iff.mp h
  simp [hsplit]

/-- As many keys as names, and every name found: the keys are the names. -/
theorem Table.keys_perm {names : List (List Byte)} (hnames : names.Nodup)
    (hcount : table.numElements = names.length)
    (hfound : ∀ n ∈ names, (table.find (.ofName n)).isSome) :
    (table.entries.map Prod.fst).Perm (names.map Key.ofName) := by
  have hnodup : (names.map Key.ofName).Nodup := hnames.map Key.ofName_injective
  have hsub : names.map Key.ofName ⊆ table.entries.map Prod.fst := by
    intro k hk
    obtain ⟨n, hn, rfl⟩ := List.mem_map.mp hk
    obtain ⟨y, hy⟩ := Option.isSome_iff_exists.mp (hfound n hn)
    exact mem_keys_of_find hy
  refine ((List.subperm_of_subset hnodup hsub).perm_of_length_le ?_).symm
  rw [List.length_map, List.length_map, ← hcount]
  exact le_rfl

theorem buildStruct_meets (hchild : ∀ y t, BuildsShape engine H y t (child y t)) {tuple : Bool}
    {names : List (List Byte)} {desc : Fin names.length → Desc} (distinct : tuple = false → names.Nodup) :
    Container M base ss
      (fun v ↦ ∃ vs, v = .struct vs ∧
        (if tuple then table.isList ∧ table.entries.length = names.length
        else (table.entries.map Prod.fst).Perm (names.map Key.ofName)) ∧
        List.Forall₂ (fun i v ↦ ∃ field, table.find (fieldKey tuple (names.get i) i) = some field ∧
          (desc i).Shape engine H field v) (List.finRange names.length) vs)
      (buildStruct child engine argpos t tuple names desc table) := by
  unfold Container buildStruct
  split
  · exact refuse_input_meets
  · rename_i hlist
    split
    · exact refuse_input_meets
    · rename_i hcount
      rw [not_not] at hcount
      refine openValues_meets.bind fun _ ↦ (each_value_meets (R := fun i v ↦ ∃ field,
        table.find (fieldKey tuple (names.get i) i) = some field ∧ (desc i).Shape engine H field v)
          fun i _ vs ↦ ?_).bind fun _ ↦ ?_
      · unfold buildField
        split
        · exact refuse_input_meets
        · rename_i field hfield
          refine (child_meets (hchild field (desc i))).bind fun h ↦ ?_
          refine .assume (fun _ hs ↦ hs.1) fun hshape ↦ Meets.pre ?_ fun _ hs ↦ hs.2
          exact pushValue_meets.post fun _ s hs ↦ ⟨h, ⟨field, hfield, hshape⟩, hs⟩
      · refine .exists_pre fun vs ↦ .assume (fun _ hs ↦ hs.1) fun hvs ↦ Meets.pre ?_ fun _ hs ↦ hs.2
        refine createNested_meets.post fun h s hs ↦ ⟨⟨vs.map Prod.snd, hs.1, ?_, hvs⟩, hs.2.owes_held⟩
        cases tuple with
        | true => exact ⟨by simpa using hlist, hcount⟩
        | false =>
          refine Table.keys_perm (distinct rfl) hcount fun n hn ↦ ?_
          obtain ⟨i, hi⟩ := List.get_of_mem hn
          obtain ⟨_, -, field, hfield, -⟩ := Library.Pointwise.exists_right hvs (List.mem_finRange i)
          rw [← hi]
          exact Option.isSome_iff_exists.mpr ⟨field, hfield⟩

theorem buildMap_meets (hchild : ∀ y t, BuildsShape engine H y t (child y t)) {key value : Desc} :
    Container M base ss
      (fun v ↦ ∃ pairs, v = .map pairs ∧ List.Forall₂ (fun e p ↦ key.Shape engine H (keySlot e.1) p.1 ∧
        value.Shape engine H e.2 p.2) table.entries pairs)
      (buildMap child engine argpos t key value table) := by
  let R := fun (e : Key × Zval) (p : Native × Native) ↦
    key.Shape engine H (keySlot e.1) p.1 ∧ value.Shape engine H e.2 p.2
  let I := fun (done : List (Key × Zval)) s ↦ ∃ ks vs : List Handle, ks.length = vs.length ∧
    List.Forall₂ R done ((ks.map Prod.snd).zip (vs.map Prod.snd)) ∧
      Stocked M base ss (some ks) (some vs) [] s
  unfold Container buildMap
  refine openKeys_meets.bind fun _ ↦ openValues_meets.bind fun _ ↦ ?_
  have hstart (s : CellInput × World) (hs : Stocked M base ss (some []) (some []) [] s) : I [] s :=
    ⟨[], [], rfl, .nil, hs⟩
  refine Meets.bind (Meets.pre (Meets.each (I := I) fun done e rest _ ↦ ?_) hstart) fun _ ↦ ?_
  · refine .exists_pre fun ks ↦ .exists_pre fun vs ↦ .assume (fun _ hs ↦ hs.1) fun hlength ↦ ?_
    refine .assume (fun _ hs ↦ hs.2.1) fun hpairs ↦ Meets.pre ?_ fun _ hs ↦ hs.2.2
    refine (child_meets (hchild (keySlot e.1) key)).bind fun k ↦ ?_
    refine .assume (fun _ hs ↦ hs.1) fun hk ↦ Meets.pre ?_ fun _ hs ↦ hs.2
    refine pushKey_meets.bind fun _ ↦ (child_meets (hchild e.2 value)).bind fun v ↦ ?_
    refine .assume (fun _ hs ↦ hs.1) fun hv ↦ Meets.pre ?_ fun _ hs ↦ hs.2
    refine pushValue_meets.post fun _ s hs ↦ ⟨ks ++ [k], vs ++ [v], ?_, ?_, hs⟩
    · simp [hlength]
    · rw [List.map_append, List.map_append, List.zip_append (by simpa using hlength)]
      exact List.rel_append hpairs (.cons ⟨hk, hv⟩ .nil)
  · refine .exists_pre fun ks ↦ .exists_pre fun vs ↦ .assume (fun _ hs ↦ hs.2.1) fun hpairs ↦
      Meets.pre ?_ fun _ hs ↦ hs.2.2
    exact createNested_meets.post fun h s hs ↦ ⟨⟨_, hs.1, hpairs⟩, hs.2.owes_held⟩

/-- The branches for an array, each with the shape that it asks for. -/
theorem buildArray_meets (hchild : ∀ y t, BuildsShape engine H y t (child y t)) {address : ℕ}
    (hz : H.deref z = .array address) :
    Container M base ss (t.Shape engine H z) (buildArray child engine argpos (H.table address) t) := by
  unfold buildArray
  cases t with
  | leaf _ => exact refuse_input_meets
  | list childDesc =>
    refine (buildList_meets hchild).post fun h s ⟨hv, hs⟩ ↦ ⟨.inr ?_, hs⟩
    obtain ⟨vs, hv, hlist, -, hvs⟩ := hv
    exact ⟨address, vs, hz, hlist, hv, hvs⟩
  | array childDesc size =>
    refine (buildList_meets hchild).post fun h s ⟨hv, hs⟩ ↦ ⟨.inr ?_, hs⟩
    obtain ⟨vs, hv, hlist, hsize, hvs⟩ := hv
    exact ⟨address, vs, hz, hlist, hv, hsize size rfl, hvs⟩
  | struct tuple names distinct desc =>
    refine (buildStruct_meets hchild distinct).post fun h s ⟨hv, hs⟩ ↦ ⟨.inr ?_, hs⟩
    obtain ⟨vs, hv, hkeys, hvs⟩ := hv
    exact ⟨address, vs, hz, hv, hkeys, hvs⟩
  | map key value =>
    refine (buildMap_meets hchild).post fun h s ⟨hv, hs⟩ ↦ ⟨.inr ?_, hs⟩
    obtain ⟨pairs, hv, hpairs⟩ := hv
    exact ⟨address, pairs, hz, hv, hpairs⟩

end Containers

theorem buildVariant_buildsShape {table : ℕ} (hz : H.tableOf z = some table) :
    BuildsShape engine H z (.leaf .variant) (buildVariant engine H z argpos depth) := by
  intro M hs ss
  refine buildVariant_meets.mono (fun _ h ↦ h) (fun h w ⟨⟨node, hnode, hh⟩, hw⟩ ↦ ⟨?_, hw⟩)
    fun _ _ ⟨howes, he, _⟩ ↦ ⟨howes, he, fun _ ↦ trivial⟩
  change LeafType.Shape engine H .variant z h.2
  unfold LeafType.Shape
  unfold Heap.tableOf at hz
  cases hderef : H.deref z with
  | array _ | object _ _ => exact ⟨rfl, _, node, hnode, hh⟩
  | _ =>
    rw [hderef] at hz
    cases hz

theorem buildValueBelow_buildsShape (t : Desc) :
    BuildsShape engine H z t (buildValueBelow engine H argpos levels depth z t) := by
  induction levels generalizing depth z t with
  | zero => exact refuse_buildsShape
  | succ levels ih =>
    unfold buildValueBelow
    split
    · rename_i hz
      exact buildVariant_buildsShape (by unfold Heap.tableOf; rw [hz])
    · rename_i hz
      exact buildVariant_buildsShape (by unfold Heap.tableOf; rw [hz])
    · rename_i t _ _ address hz _
      intro M hs ss
      refine allocate_meets.bind fun _ ↦ .enclosed ?_
      have hchild (y : Zval) (t : Desc) :
          BuildsShape engine H y t (buildValueBelow engine H argpos levels (depth + 1) y t) := ih t
      have hfree {s : CellInput × World} {hs : List Handle} (h : s.2.Owes M (s.1.held ++ hs) ss) :
          (s.1.free s.2).Owes M hs ss := ⟨h.memory, h.values.releaseAll, h.strings⟩
      have hbuilds : Container M hs ss (t.Shape engine H z) (buildArray
          (buildValueBelow engine H argpos levels (depth + 1)) engine argpos (H.table address) t) :=
        buildArray_meets hchild hz
      refine hbuilds.mono (fun s hs ↦ ⟨hs.1, hs.2⟩)
        (fun h s ⟨hshape, hs⟩ ↦ ⟨hshape, ?_⟩) fun e s ⟨hs, he, hp⟩ ↦ ⟨hfree hs, he, hp⟩
      exact hfree (hs.perm List.perm_middle.symm (.refl _))
    · exact buildPlain_buildsShape

/-- A native value built for a column has the shape of the PHP value, and is all
that is left of what was created; a conversion that fails leaves nothing. -/
theorem buildValue_run (engine : Engine) (H : Heap) (argpos depth : ℕ) (z : Zval) (t : ColumnType)
    (hw : w.Owes M hs ss) :
    (∀ h w', buildValue engine H argpos depth z t.descFill w = (.ok h, w') →
      t.descFill.Shape engine H z h.2 ∧ w'.Owes M (h :: hs) ss) ∧
    (∀ stop w', buildValue engine H argpos depth z t.descFill w = (.error stop, w') →
      w'.Owes M hs ss) := by
  have hmeets : Meets (·.Owes M hs ss) (buildValue engine H argpos depth z t.descFill) _ _ :=
    buildValueBelow_buildsShape t.descFill M hs ss
  have hends := hmeets w hw
  constructor
  · intro h w' hrun
    rw [hrun] at hends
    exact hends
  · intro stop w' hrun
    rw [hrun] at hends
    exact hends.1

/-- `STRUCT(a TINYINT, b VARCHAR[])`. -/
def structColumn : ColumnType :=
  .struct false [ascii "a", ascii "b"] (fun _ ↦ by decide) fun i ↦
    if i.val = 0 then .leaf (.integer .tinyint) else .list (.leaf (.varchar []))

/-- `['b' => ['x'], 'a' => 5]`. -/
def structHeap : Heap where
  table
    | 0 => ⟨[(.name (ascii "b"), .array 1), (.name (ascii "a"), .long 5)], by decide, by decide⟩
    | 1 => ⟨[(.index 0, .string (ascii "x"))], by decide, by decide⟩
    | _ => .empty
  cell _ := .null

theorem buildValue_structHeap : ∃ h w',
    buildValue plainEngine structHeap 1 0 (.array 0) structColumn.descFill .empty = (.ok h, w') ∧
      structColumn.descFill.Shape plainEngine structHeap (.array 0) h.2 ∧
        w'.Owes (fun _ ↦ .granted) [h] [] := by
  have hrun := buildValue_run plainEngine structHeap 1 0 (.array 0) structColumn World.owes_empty
  cases hok : buildValue plainEngine structHeap 1 0 (.array 0) structColumn.descFill .empty with
  | mk r w' =>
    cases r with
    | ok h => exact ⟨h, w', rfl, hrun.1 h w' hok⟩
    | error stop =>
      have hdone : (buildValue plainEngine structHeap 1 0 (.array 0) structColumn.descFill .empty).1.isOk := by
        decide
      rw [hok] at hdone
      cases hdone

end PdoDuckdb.Cells
