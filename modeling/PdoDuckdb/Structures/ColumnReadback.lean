import PdoDuckdb.Structures.VariantReadback

namespace PdoDuckdb.Structures

open Library Library.Collecting Value
open Cells (ColumnType LeafType Desc Heap Native Engine Table keySlot fieldKey htMaxSize)

section Relations

def PlainLeaf : LeafType → Prop
  | .boolean => True
  | .integer type => fitsLong type
  | .varchar typeAlias => typeAlias ≠ ascii "JSON"
  | _ => False

def PlainColumn : ColumnType → Prop
  | .leaf type => PlainLeaf type
  | .list child => PlainColumn child
  | .array child _ => PlainColumn child
  | .struct _ _ _ child => ∀ i, PlainColumn (child i)
  | .map key value => PlainColumn key ∧ PlainColumn value
  | .union _ _ => False

def KindedLeaf (H : Heap) (type : LeafType) (z : Cells.Zval) : Prop :=
  match H.deref z, type with
  | .null, _ | .bool _, .boolean | .long _, .integer _ | .string _, .varchar _ => True
  | _, _ => False

def Kinded (H : Heap) : ColumnType → Cells.Zval → Prop
  | .leaf type => KindedLeaf H type
  | .list child => fun z ↦ ∀ table, H.deref z = .array table →
      ∀ e ∈ (H.table table).entries, Kinded H child e.2
  | .array child _ => fun z ↦ ∀ table, H.deref z = .array table →
      ∀ e ∈ (H.table table).entries, Kinded H child e.2
  | .struct tuple names _ child => fun z ↦ ∀ table, H.deref z = .array table → ∀ i field,
      (H.table table).find (fieldKey tuple (names.get i) i) = some field → Kinded H (child i) field
  | .map key value => fun z ↦ ∀ table, H.deref z = .array table →
      ∀ e ∈ (H.table table).entries, Kinded H key (keySlot e.1) ∧ Kinded H value e.2
  | .union _ _ => fun _ ↦ False

def SameLeaf (H : Heap) (z : Cells.Zval) (v : Zval) : Prop :=
  match H.deref z with
  | .null => v = .null
  | .bool b => v = .long (if b then 1 else 0)
  | .long l => v = .long l.toInt
  | .string s => v = .string s
  | _ => False

/-- A value of a type that is given back. A struct is an array of its fields
under their names, in the order of the type, or a list where it has no names. A
map is the list of its entries. -/
def Same (H : Heap) : ColumnType → Cells.Zval → Zval → Prop
  | .leaf _ => SameLeaf H
  | .list child => fun z v ↦ (H.deref z = .null ∧ v = .null) ∨
      ∃ table vs, H.deref z = .array table ∧ v = .list vs ∧
        List.Forall₂ (fun e v ↦ Same H child e.2 v) (H.table table).entries vs
  | .array child _ => fun z v ↦ (H.deref z = .null ∧ v = .null) ∨
      ∃ table vs, H.deref z = .array table ∧ v = .list vs ∧
        List.Forall₂ (fun e v ↦ Same H child e.2 v) (H.table table).entries vs
  | .struct tuple names _ child => fun z v ↦ (H.deref z = .null ∧ v = .null) ∨
      ∃ table vs, H.deref z = .array table ∧
        (if tuple then v = .list vs ∧ (H.table table).isList ∧
          (H.table table).entries.length = names.length
        else v = .array ((names.map Key.ofName).zip vs) ∧
          ((H.table table).entries.map Prod.fst).Perm (names.map Key.ofName)) ∧
        List.Forall₂ (fun i v ↦ ∃ field,
          (H.table table).find (fieldKey tuple (names.get i) i) = some field ∧ Same H (child i) field v)
          (List.finRange names.length) vs
  | .map key value => fun z v ↦ (H.deref z = .null ∧ v = .null) ∨
      ∃ table vs, H.deref z = .array table ∧ v = .list vs ∧
        List.Forall₂ (fun e v ↦ ∃ k w, v = .entry k w ∧ Same H key (keySlot e.1) k ∧ Same H value e.2 w)
          (H.table table).entries vs
  | .union _ _ => fun _ _ ↦ False

def OfType : ColumnType → Vector → Prop
  | .leaf type => fun vec ↦ ∃ validity data, vec = .leaf type validity data
  | .list child => fun vec ↦ ∃ validity entries size childVec,
      vec = .list validity entries size childVec ∧ OfType child childVec
  | .array child n => fun vec ↦ ∃ validity size childVec,
      vec = .array validity size childVec ∧ size.toNat = n ∧ OfType child childVec
  | .struct tuple names _ child => fun vec ↦ ∃ validity, ∃ fields : Fin names.length → Vector,
      vec = .struct validity tuple names fields ∧ ∀ i, OfType (child i) (fields i)
  | .map key value => fun vec ↦ ∃ validity entries size keyVec valueVec,
      vec = .map validity entries size keyVec valueVec ∧ OfType key keyVec ∧ OfType value valueVec
  | .union names member => fun vec ↦ ∃ validity tags, ∃ members : Fin names.length → Vector,
      vec = .union validity tags names members ∧ ∀ i, OfType (member i) (members i)

/-- An `idx_t` counts the rows of every vector. -/
def Vector.Addressed : Vector → ℕ → Prop
  | .leaf _ _ _ => fun n ↦ n < 0x10000000000000000
  | .list _ _ size child => fun n ↦ n < 0x10000000000000000 ∧ child.Addressed size.toNat
  | .map _ _ size key value => fun n ↦
    n < 0x10000000000000000 ∧ key.Addressed size.toNat ∧ value.Addressed size.toNat
  | .array _ size child => fun n ↦ n < 0x10000000000000000 ∧ child.Addressed (n * size.toNat)
  | .struct _ _ _ child => fun n ↦ n < 0x10000000000000000 ∧ ∀ i, (child i).Addressed n
  | .union _ _ _ member => fun n ↦ n < 0x10000000000000000 ∧ ∀ i, (member i).Addressed n

theorem Vector.Addressed.lt {vec : Vector} {n : ℕ} (h : vec.Addressed n) : n < 0x10000000000000000 := by
  cases vec with
  | leaf _ _ _ => exact h
  | list _ _ _ _ | map _ _ _ _ _ | array _ _ _ | struct _ _ _ _ | union _ _ _ _ => exact h.1

theorem plain_of_type {t : ColumnType} {vec : Vector} (ht : PlainColumn t) (h : OfType t vec) :
    vec.Plain := by
  induction t generalizing vec with
  | leaf type =>
    obtain ⟨validity, data, rfl⟩ := h
    intro heq
    subst heq
    exact ht rfl
  | list child ih =>
    obtain ⟨validity, entries, size, childVec, rfl, hchild⟩ := h
    show childVec.Plain
    exact ih ht hchild
  | array child n ih =>
    obtain ⟨validity, size, childVec, rfl, -, hchild⟩ := h
    show childVec.Plain
    exact ih ht hchild
  | struct tuple names distinct child ih =>
    obtain ⟨validity, fields, rfl, hfields⟩ := h
    exact fun i ↦ ih i (ht i) (hfields i)
  | map key value ihk ihv =>
    obtain ⟨validity, entries, size, keyVec, valueVec, rfl, hkey, hvalue⟩ := h
    exact ⟨ihk ht.1 hkey, ihv ht.2 hvalue⟩
  | union names member ih => exact ht.elim

end Relations

section Reading

variable {B : Bridge} {H : Heap} {engine : Engine} {n depth row rowCount : ℕ} {z : Cells.Zval}
  {t : ColumnType} {x : Native} {vec : Vector}

structure Kept (engine : Engine) (H : Heap) (t : ColumnType) (z : Cells.Zval) (x : Native)
    (vec : Vector) (row rowCount : ℕ) : Prop where
  shape : t.descFill.Shape engine H z x
  kinded : Kinded H t z
  stored : Stored t vec row x
  inRange : row < rowCount
  sized : vec.Sized rowCount
  addressed : vec.Addressed rowCount

def ReadsBack (B : Bridge) (H : Heap) (n : ℕ) (t : ColumnType) (z : Cells.Zval) (vec : Vector)
    (row rowCount : ℕ) : Prop :=
  Decided (H.Within n z) (Same H t z) (nativeZval B n vec row rowCount)

theorem same_null (ht : PlainColumn t) (hz : H.deref z = .null) : Same H t z .null := by
  cases t with
  | leaf type =>
    unfold Same SameLeaf
    rw [hz]
  | list _ | array _ _ | struct _ _ _ _ | map _ _ => exact .inl ⟨hz, rfl⟩
  | union _ _ => exact ht.elim

theorem readsBack_zero : ReadsBack B H 0 t z vec row rowCount := Decided.missing id

theorem readsBack_null (ht : PlainColumn t) (hz : H.deref z = .null) (hnull : NullAt vec row)
    (hrow : row < rowCount) : ReadsBack B H (n + 1) t z vec row rowCount := by
  unfold ReadsBack
  rw [nativeZval_null hnull hrow]
  exact Decided.found (within_leaf (by simp [Heap.tableOf, hz])) (same_null ht hz)

theorem nativeZval_valid (hrow : row < rowCount) (hvalid : vec.ValidAt row) :
    nativeZval B (n + 1) vec row rowCount = branchZval B n (nativeZval B n) row rowCount vec := by
  rw [nativeZval, if_neg (Nat.not_le_of_lt hrow), not_validAt_false hvalid, if_neg (by decide)]

/-- A leaf whose value is stored is read as that value. -/
theorem readsBack_leaf {type : LeafType} (ht : PlainLeaf type)
    (hk : Kept engine H (.leaf type) z x vec row rowCount) :
    ReadsBack B H (n + 1) (.leaf type) z vec row rowCount := by
  have hshape : LeafType.Shape engine H type z x := hk.shape
  have hkinded : KindedLeaf H type z := hk.kinded
  obtain ⟨validity, data, rfl, hstored⟩ := hk.stored
  unfold LeafType.Shape at hshape
  unfold KindedLeaf at hkinded
  by_cases hnull : H.deref z = .null
  · rw [hnull] at hshape
    obtain rfl := hshape
    exact readsBack_null ht hnull hstored hk.inRange
  · have hread (s : Cells.Scalar) (hx : x = .scalar s) (htype : type ≠ .variant) :
        nativeZval B (n + 1) (.leaf type validity data) row rowCount = leafZval B n type (.scalar s) := by
      subst hx
      rw [nativeZval_valid hk.inRange hstored.1, branchZval, hstored.2, if_neg htype, Option.bind_some]
    unfold ReadsBack Same SameLeaf
    cases hz : H.deref z with
    | bool b =>
      rw [hz] at hshape hkinded
      cases type with
      | boolean =>
        rw [hread _ hshape (by simp)]
        exact Decided.found (within_leaf (by simp [Heap.tableOf, hz])) rfl
      | _ => cases hkinded
    | long l =>
      rw [hz] at hshape hkinded
      cases type with
      | integer type =>
        rw [hread _ hshape (by simp)]
        have hlong : leafZval B n (.integer type) (.scalar (.integer type l.toInt)) = some (.long l.toInt) :=
          congrArg some (if_pos ht)
        exact hlong ▸ Decided.found (within_leaf (by simp [Heap.tableOf, hz])) rfl
      | _ => cases hkinded
    | string s =>
      rw [hz] at hshape hkinded
      cases type with
      | varchar typeAlias =>
        rw [hread _ hshape (by simp)]
        have hstring : leafZval B n (.varchar typeAlias) (.scalar (.varchar s)) = some (.string s) := if_neg ht
        exact hstring ▸ Decided.found (within_leaf (by simp [Heap.tableOf, hz])) rfl
      | _ => cases hkinded
    | null => exact absurd hz hnull
    | _ => 
      rw [hz] at hkinded
      cases hkinded

/-- A value that is not null, and its vector where the row is valid. -/
theorem readsBack_branch (hrow : row < rowCount) (hvalid : vec.ValidAt row) {table : ℕ}
    (hz : H.tableOf z = some table)
    (h : Decided (∀ e ∈ (H.table table).entries, H.Within n e.2) (Same H t z)
      (branchZval B n (nativeZval B n) row rowCount vec)) :
    ReadsBack B H (n + 1) t z vec row rowCount := by
  unfold ReadsBack
  rw [nativeZval_valid hrow hvalid]
  exact h.congr (within_table hz).symm

theorem tableOf_array {table : ℕ} (hz : H.deref z = .array table) : H.tableOf z = some table := by
  simp [Heap.tableOf, hz]

section Elements

variable {entries : List (Key × Cells.Zval)} {items : List Native} {child : ColumnType} {place : ℕ → ℕ}
  {childCount : ℕ}

/-- The elements of a list, read one after the other. -/
theorem elements_readsBack
    (ih : ∀ z x row, Kept engine H child z x vec row childCount → ReadsBack B H n child z vec row childCount)
    (hshape : List.Forall₂ (fun e x ↦ child.descFill.Shape engine H e.2 x) entries items)
    (hkinded : ∀ e ∈ entries, Kinded H child e.2)
    (hstored : ∀ i x, items[i]? = some x → Stored child vec (place i) x)
    (hrow : ∀ i < entries.length, place i < childCount) (hsized : vec.Sized childCount)
    (haddressed : vec.Addressed childCount) :
    Decided (∀ e ∈ entries, H.Within n e.2)
      (List.Forall₂ (fun e v ↦ Same H child e.2 v) entries)
      ((List.range entries.length).mapM fun i ↦ nativeZval B n vec (place i) childCount) := by
  refine Decided.mapM (Pointwise.forall₂_range fun i e he ↦ ?_)
  obtain ⟨x, hx, hex⟩ := Pointwise.getElem?_right hshape he
  obtain ⟨hi, -⟩ := List.getElem?_eq_some_iff.mp he
  exact ih e.2 x (place i)
    ⟨hex, hkinded e (List.mem_of_getElem? he), hstored i x hx, hrow i hi, hsized, haddressed⟩

end Elements

theorem rangeZval_eq {entry : ListEntry} {size : UInt64} {count : ℕ} (f : ℕ → Option Zval)
    (hcount : entry.length.toNat = count) (hmax : count ≤ htMaxSize)
    (hrange : entry.offset.toNat + entry.length.toNat ≤ size.toNat) :
    rangeZval entry size f =
      ((List.range count).mapM fun i ↦ f (entry.offset.toNat + i)).map .list := by
  have hbounds : ¬ (size.toNat < entry.offset.toNat ∨
      size.toNat - entry.offset.toNat < entry.length.toNat) := by omega
  rw [rangeZval, if_neg hbounds, listZval, List.length_range, hcount, if_pos hmax]

theorem readsBack_list {child : ColumnType} (ht : PlainColumn child)
    (ih : ∀ vec z x row rowCount, Kept engine H child z x vec row rowCount →
      ReadsBack B H n child z vec row rowCount)
    (hk : Kept engine H (.list child) z x vec row rowCount) :
    ReadsBack B H (n + 1) (.list child) z vec row rowCount := by
  have hshape := hk.shape
  have hkinded := hk.kinded
  have hsized := hk.sized
  have haddressed := hk.addressed
  obtain ⟨validity, entries, size, childVec, rfl, ⟨rfl, hnull⟩ | ⟨items, e, rfl, hvalid, he, hcount, hrange, hstored⟩⟩ :=
    hk.stored
  · rcases hshape with ⟨hz, -⟩ | ⟨_, _, _, _, hne, _⟩
    · exact readsBack_null ht hz hnull hk.inRange
    · cases hne
  · rcases hshape with ⟨_, hne⟩ | ⟨table, vs, hz, -, hvs, hshape⟩
    · cases hne
    · cases hvs
      refine readsBack_branch hk.inRange hvalid (tableOf_array hz) ?_
      have hlen := hshape.length_eq
      have hmax := (H.table table).size
      rw [branchZval, he, Option.bind_some, rangeZval_eq _ (hcount.trans hlen.symm) hmax hrange]
      refine (elements_readsBack (ih childVec · · · size.toNat) hshape (hkinded table hz) hstored (fun i hi ↦ ?_)
        hsized.2.2 haddressed.2).map fun vs hvs ↦ .inr ⟨table, vs, hz, rfl, hvs⟩
      omega

theorem readsBack_array {child : ColumnType} {count : ℕ} (ht : PlainColumn child)
    (ih : ∀ vec z x row rowCount, Kept engine H child z x vec row rowCount →
      ReadsBack B H n child z vec row rowCount)
    (hk : Kept engine H (.array child count) z x vec row rowCount) :
    ReadsBack B H (n + 1) (.array child count) z vec row rowCount := by
  have hshape := hk.shape
  have hkinded := hk.kinded
  have hsized := hk.sized
  have haddressed := hk.addressed
  obtain ⟨validity, size, childVec, rfl, rfl, ⟨rfl, hnull⟩ | ⟨items, rfl, hvalid, hcount, hstored⟩⟩ := hk.stored
  · rcases hshape with ⟨hz, -⟩ | ⟨_, _, _, _, hne, _⟩
    · exact readsBack_null ht hz hnull hk.inRange
    · cases hne
  · rcases hshape with ⟨_, hne⟩ | ⟨table, vs, hz, -, hvs, -, hshape⟩
    · cases hne
    · cases hvs
      refine readsBack_branch hk.inRange hvalid (tableOf_array hz) ?_
      have hlen := hshape.length_eq
      have hmax := (H.table table).size
      have hrow := hk.inRange
      have hfits : ¬ (size.toNat ≠ 0 ∧ 0xffffffffffffffff / size.toNat < rowCount) := by
        rintro ⟨hne, hlt⟩
        have hproduct := (Nat.div_lt_iff_lt_mul (Nat.pos_of_ne_zero hne)).mp hlt
        have hbound := haddressed.2.lt
        omega
      rw [branchZval, if_neg hfits, listZval, List.length_range, ← hcount, ← hlen, if_pos hmax]
      refine (elements_readsBack (ih childVec · · · _) hshape (hkinded table hz) ?_ (fun i hi ↦ ?_)
        ?_ ?_).map fun vs hvs ↦ .inr ⟨table, vs, hz, rfl, hvs⟩
      all_goals rw [hlen, hcount]
      · exact hstored
      · have hlast : i < size.toNat := by omega
        calc row * size.toNat + i < row * size.toNat + size.toNat := Nat.add_lt_add_left hlast _
          _ = (row + 1) * size.toNat := (Nat.succ_mul row _).symm
          _ ≤ rowCount * size.toNat := Nat.mul_le_mul_right _ hrow
      · exact hsized.2
      · exact haddressed.2

theorem within_keySlot (k : Key) : H.Within (n + 1) (keySlot k) :=
  within_leaf (by cases k <;> rfl)

theorem within_pos (h : H.Within n z) : 0 < n := by
  cases n with
  | zero => exact h.elim
  | succ n => exact Nat.succ_pos n

/-- A key stands directly in its map, as the value does. -/
theorem within_key {k : Key} (h : H.Within n z) : H.Within n (keySlot k) := by
  obtain ⟨m, rfl⟩ := Nat.exists_eq_succ_of_ne_zero (within_pos h).ne'
  exact within_keySlot k

theorem readsBack_map {key value : ColumnType} (ht : PlainColumn (.map key value))
    (ihk : ∀ vec z x row rowCount, Kept engine H key z x vec row rowCount →
      ReadsBack B H n key z vec row rowCount)
    (ihv : ∀ vec z x row rowCount, Kept engine H value z x vec row rowCount →
      ReadsBack B H n value z vec row rowCount)
    (hk : Kept engine H (.map key value) z x vec row rowCount) :
    ReadsBack B H (n + 1) (.map key value) z vec row rowCount := by
  have hshape := hk.shape
  have hkinded := hk.kinded
  have hsized := hk.sized
  have haddressed := hk.addressed
  obtain ⟨validity, entries, size, keyVec, valueVec, rfl,
    ⟨rfl, hnull⟩ | ⟨pairs, e, rfl, hvalid, he, hcount, hrange, hstored⟩⟩ := hk.stored
  · rcases hshape with ⟨hz, -⟩ | ⟨_, _, _, hne, _⟩
    · exact readsBack_null ht hz hnull hk.inRange
    · cases hne
  · rcases hshape with ⟨_, hne⟩ | ⟨table, vs, hz, hvs, hshape⟩
    · cases hne
    · cases hvs
      refine readsBack_branch hk.inRange hvalid (tableOf_array hz) ?_
      have hlen := hshape.length_eq
      have hmax := (H.table table).size
      rw [branchZval, he, Option.bind_some, rangeZval_eq _ (hcount.trans hlen.symm) hmax hrange]
      refine (Decided.mapM (Pointwise.forall₂_range fun i m hm ↦ ?_)).map
        fun vs hvs ↦ .inr ⟨table, vs, hz, rfl, hvs⟩
      obtain ⟨p, hp, hkey, hvalue⟩ := Pointwise.getElem?_right hshape hm
      obtain ⟨hi, -⟩ := List.getElem?_eq_some_iff.mp hm
      have hrow : e.offset.toNat + i < size.toNat := by omega
      obtain ⟨hmk, hmv⟩ := hkinded table hz m (List.mem_of_getElem? hm)
      obtain ⟨hsk, hsv⟩ := hstored i p hp
      refine (ihk keyVec (keySlot m.1) p.1 _ size.toNat ⟨hkey, hmk, hsk, hrow, hsized.2.2.1,
        haddressed.2.1⟩).pair (ihv valueVec m.2 p.2 _ size.toNat ⟨hvalue, hmv, hsv, hrow, hsized.2.2.2,
        haddressed.2.2⟩) within_key fun k w hk hw ↦ ⟨k, w, rfl, hk, hw⟩

section Fields

variable {tuple : Bool} {names : List (List Byte)} {t : Table}

def FieldKeys (tuple : Bool) (names : List (List Byte)) (t : Table) : Prop :=
  if tuple then t.isList ∧ t.entries.length = names.length
  else (t.entries.map Prod.fst).Perm (names.map Key.ofName)

theorem FieldKeys.length_eq (hkeys : FieldKeys tuple names t) : t.entries.length = names.length := by
  unfold FieldKeys at hkeys
  cases tuple with
  | true => exact hkeys.2
  | false => simpa using hkeys.length_eq

/-- Every entry stands under the key of a field. -/
theorem exists_fieldKey (hkeys : FieldKeys tuple names t) {e : Key × Cells.Zval} (he : e ∈ t.entries) :
    ∃ i : Fin names.length, fieldKey tuple (names.get i) i = e.1 := by
  have hmem : e.1 ∈ t.entries.map Prod.fst := List.mem_map_of_mem he
  unfold FieldKeys at hkeys
  unfold fieldKey
  cases tuple with
  | true =>
    obtain ⟨hlist, hlen⟩ := hkeys
    rw [of_decide_eq_true hlist, hlen] at hmem
    obtain ⟨i, hi, hkey⟩ := List.mem_map.mp hmem
    exact ⟨⟨i, List.mem_range.mp hi⟩, hkey⟩
  | false =>
    obtain ⟨name, hname, hkey⟩ := List.mem_map.mp (hkeys.mem_iff.mp hmem)
    obtain ⟨i, rfl⟩ := List.get_of_mem hname
    exact ⟨i, hkey⟩

theorem mem_of_find {k : Key} {y : Cells.Zval} (h : t.find k = some y) : (k, y) ∈ t.entries := by
  obtain ⟨l, r, hsplit, -⟩ := List.lookup_eq_some_iff.mp h
  simp [hsplit]

theorem value_eq_of_mem {e : Key × Cells.Zval} {y : Cells.Zval} (he : e ∈ t.entries)
    (h : t.find e.1 = some y) : e.2 = y := by
  have hinj := List.inj_on_of_nodup_map t.keys_nodup
  exact congrArg Prod.snd (hinj he (mem_of_find h) rfl)

/-- What holds of the fields holds of all entries. -/
theorem forall_fields {field : Fin names.length → Cells.Zval} {P : Cells.Zval → Prop}
    (hkeys : FieldKeys tuple names t)
    (hfield : ∀ i, t.find (fieldKey tuple (names.get i) i) = some (field i)) :
    (∀ i ∈ List.finRange names.length, P (field i)) ↔ ∀ e ∈ t.entries, P e.2 := by
  constructor
  · intro h e he
    obtain ⟨i, hi⟩ := exists_fieldKey hkeys he
    rw [value_eq_of_mem he (hi ▸ hfield i)]
    exact h i (List.mem_finRange i)
  · exact fun h i _ ↦ h _ (mem_of_find (hfield i))

theorem foldl_insert_eq {fields : List (List Byte × Zval)} {entries : List (Key × Zval)}
    (hnodup : (fields.map Prod.fst).Nodup) (hfresh : ∀ f ∈ fields, ∀ e ∈ entries, e.1 ≠ .ofName f.1) :
    fields.foldl (fun (a : Zval) field ↦ a.insert field.1 field.2) (.array entries) =
      .array (entries ++ fields.map fun f ↦ (.ofName f.1, f.2)) := by
  induction fields generalizing entries with
  | nil => simp
  | cons f fields ih =>
    have hupdate : ∀ l : List (Key × Zval), (∀ e ∈ l, e.1 ≠ .ofName f.1) →
        Zval.update l f.1 f.2 = l ++ [(.ofName f.1, f.2)] := by
      intro l hl
      induction l with
      | nil => rfl
      | cons e l ihl =>
        rw [Zval.update, if_neg (hl e List.mem_cons_self), ihl fun e' he ↦ hl e' (List.mem_cons_of_mem e he)]
        rfl
    rw [List.foldl_cons, Zval.insert, hupdate entries (hfresh f List.mem_cons_self)]
    rw [List.map_cons, List.nodup_cons] at hnodup
    rw [ih hnodup.2, List.append_assoc]
    · rfl
    · intro g hg e he
      rcases List.mem_append.mp he with he | he
      · exact hfresh g (List.mem_cons_of_mem f hg) e he
      · obtain rfl := List.mem_singleton.mp he
        exact fun heq ↦ hnodup.1 (Key.ofName_injective heq ▸ List.mem_map_of_mem hg)

theorem fieldsZval_named {vs : List Zval} (hnodup : names.Nodup) (hlen : names.length = vs.length) :
    fieldsZval false names vs = .array ((names.map Key.ofName).zip vs) := by
  have hnames : (names.zip vs).map Prod.fst = names := List.map_fst_zip hlen.le
  have hfold : fieldsZval false names vs = .array ([] ++ (names.zip vs).map fun f ↦ (.ofName f.1, f.2)) :=
    foldl_insert_eq (hnames.symm ▸ hnodup) fun _ _ _ h ↦ absurd h List.not_mem_nil
  rw [hfold, List.nil_append, List.zip_map_left]
  rfl

/-- The fields of a struct, read one after the other. -/
theorem fields_readsBack {child : Fin names.length → ColumnType} {fields : Fin names.length → Vector}
    {values : List Native}
    (ih : ∀ i vec z x row rowCount, Kept engine H (child i) z x vec row rowCount →
      ReadsBack B H n (child i) z vec row rowCount)
    (hkeys : FieldKeys tuple names t)
    (hshape : List.Forall₂ (fun i x ↦ ∃ field, t.find (fieldKey tuple (names.get i) i) = some field ∧
      (child i).descFill.Shape engine H field x) (List.finRange names.length) values)
    (hkinded : ∀ i field, t.find (fieldKey tuple (names.get i) i) = some field → Kinded H (child i) field)
    (hstored : ∀ (i : Fin names.length) x, values[i.val]? = some x → Stored (child i) (fields i) row x)
    (hrow : row < rowCount) (hsized : ∀ i, (fields i).Sized rowCount)
    (haddressed : ∀ i, (fields i).Addressed rowCount) :
    Decided (∀ e ∈ t.entries, H.Within n e.2)
      (List.Forall₂ (fun i v ↦ ∃ field, t.find (fieldKey tuple (names.get i) i) = some field ∧
        Same H (child i) field v) (List.finRange names.length))
      ((List.finRange names.length).mapM fun i ↦ nativeZval B n (fields i) row rowCount) := by
  have hfield (i : Fin names.length) : ∃ field, t.find (fieldKey tuple (names.get i) i) = some field ∧
      ReadsBack B H n (child i) field (fields i) row rowCount := by
    have hi : (List.finRange names.length)[i.val]? = some i := by simp
    obtain ⟨x, hx, field, hfind, hchild⟩ := Pointwise.getElem?_right hshape hi
    exact ⟨field, hfind, ih i (fields i) field x row rowCount
      ⟨hchild, hkinded i field hfind, hstored i x hx, hrow, hsized i, haddressed i⟩⟩
  choose field hfind hread using hfield
  have hall := Decided.mapM (List.forall₂_same.mpr fun i (_ : i ∈ List.finRange names.length) ↦ hread i)
  refine (hall.congr (forall_fields hkeys hfind)).imp fun vs hvs ↦ ?_
  exact hvs.imp fun i v hv ↦ ⟨field i, hfind i, hv⟩

end Fields

theorem readsBack_struct {tuple : Bool} {names : List (List Byte)}
    {distinct : tuple = false → names.Nodup} {child : Fin names.length → ColumnType}
    (ht : PlainColumn (.struct tuple names distinct child))
    (ih : ∀ i vec z x row rowCount, Kept engine H (child i) z x vec row rowCount →
      ReadsBack B H n (child i) z vec row rowCount)
    (hk : Kept engine H (.struct tuple names distinct child) z x vec row rowCount) :
    ReadsBack B H (n + 1) (.struct tuple names distinct child) z vec row rowCount := by
  have hshape := hk.shape
  have hkinded := hk.kinded
  have hsized := hk.sized
  have haddressed := hk.addressed
  obtain ⟨validity, fields, rfl, ⟨rfl, hnull⟩ | ⟨values, rfl, hvalid, hcount, hstored⟩⟩ := hk.stored
  · rcases hshape with ⟨hz, -⟩ | ⟨_, _, _, hne, _⟩
    · exact readsBack_null ht hz hnull hk.inRange
    · cases hne
  · rcases hshape with ⟨_, hne⟩ | ⟨table, vs, hz, hvs, hkeys, hshape⟩
    · cases hne
    · cases hvs
      refine readsBack_branch hk.inRange hvalid (tableOf_array hz) ?_
      have hlen : names.length ≤ htMaxSize := by
        rw [← FieldKeys.length_eq hkeys]
        exact (H.table table).size
      have hread := fields_readsBack ih hkeys hshape (hkinded table hz) hstored hk.inRange hsized.2
        haddressed.2
      rw [branchZval, structZval, if_pos hlen]
      refine hread.map fun vs hvs ↦ .inr ⟨table, vs, hz, ?_, hvs⟩
      have hvslen : names.length = vs.length := by rw [← hvs.length_eq, List.length_finRange]
      cases tuple with
      | true => exact ⟨rfl, hkeys⟩
      | false => exact ⟨fieldsZval_named (distinct rfl) hvslen, hkeys⟩

/-- What is built for a column and stored is read back, by induction on its type. -/
theorem readsBack (ht : PlainColumn t) (hk : Kept engine H t z x vec row rowCount) :
    ReadsBack B H n t z vec row rowCount := by
  induction t generalizing n z x vec row rowCount with
  | leaf type =>
    cases n with
    | zero => exact readsBack_zero
    | succ n => exact readsBack_leaf ht hk
  | list child ih =>
    cases n with
    | zero => exact readsBack_zero
    | succ n => exact readsBack_list ht (fun _ _ _ _ _ h ↦ ih ht h) hk
  | array child count ih =>
    cases n with
    | zero => exact readsBack_zero
    | succ n => exact readsBack_array ht (fun _ _ _ _ _ h ↦ ih ht h) hk
  | struct tuple names distinct child ih =>
    cases n with
    | zero => exact readsBack_zero
    | succ n => exact readsBack_struct ht (fun i _ _ _ _ _ h ↦ ih i (ht i) h) hk
  | map key value ihk ihv =>
    cases n with
    | zero => exact readsBack_zero
    | succ n => exact readsBack_map ht (fun _ _ _ _ _ h ↦ ihk ht.1 h) (fun _ _ _ _ _ h ↦ ihv ht.2 h) hk
  | union names member ih => exact ht.elim

end Reading

section Nests

open Cells (buildValue buildValueBelow buildArray Stop World CellInput plainEngine)

variable {argpos depth levels k i j : ℕ}

/-- `INTEGER[]...[]`. -/
def nestType : ℕ → ColumnType
  | 0 => .leaf (.integer .integer)
  | k + 1 => .list (nestType k)

def nestVector : ℕ → Vector
  | 0 => .leaf (.integer .integer) none [.scalar (.integer .integer 1)]
  | k + 1 => .list none [⟨0, 1⟩] 1 (nestVector k)

def nestNative : ℕ → Native
  | 0 => .scalar (.integer .integer 1)
  | k + 1 => .list [nestNative k]

theorem nest_stored : Stored (nestType k) (nestVector k) 0 (nestNative k) := by
  induction k with
  | zero => exact ⟨none, _, rfl, nofun, rfl⟩
  | succ k ih =>
    refine ⟨none, _, _, _, rfl, .inr ⟨_, _, rfl, nofun, rfl, rfl, le_rfl, fun i x hx ↦ ?_⟩⟩
    cases i with
    | zero =>
      cases hx
      exact ih
    | succ i => cases hx

theorem nest_plain : PlainColumn (nestType k) := by
  induction k with
  | zero => rfl
  | succ k ih => exact ih

theorem nest_ofType : OfType (nestType k) (nestVector k) := by
  induction k with
  | zero => exact ⟨none, _, rfl⟩
  | succ k ih => exact ⟨none, _, _, _, rfl, ih⟩

theorem nest_sized : (nestVector k).Sized 1 := by
  induction k with
  | zero => exact ⟨nofun, rfl⟩
  | succ k ih => exact ⟨nofun, rfl, ih⟩

theorem nest_addressed : (nestVector k).Addressed 1 := by
  induction k with
  | zero =>
    show 1 < 0x10000000000000000
    decide
  | succ k ih => exact ⟨by decide, ih⟩

theorem nest_kinded (hi : i + j + 1 = k) : Kinded (nestHeap k) (nestType (j + 1)) (.array i) := by
  induction j generalizing i with
  | zero =>
    intro table htable e he
    cases htable
    obtain rfl := List.mem_singleton.mp he
    rw [if_neg (by omega)]
    trivial
  | succ j ih =>
    intro table htable e he
    cases htable
    obtain rfl := List.mem_singleton.mp he
    rw [if_pos (by omega)]
    exact ih (by omega)

/-- With memory for everything, the value is built. -/
def Gives (m : Exits Stop World Cells.Handle) (x : Native) : Prop :=
  Exits.Meets (fun w ↦ Cells.Granted w.memory) m (fun h w ↦ h.2 = x ∧ Cells.Granted w.memory) fun _ _ ↦ False

theorem allocate_granted {w : World} (hw : Cells.Granted w.memory) :
    Cells.allocate w = (.ok ⟨⟩, w.allocate) := by
  unfold Cells.allocate
  rw [hw]

theorem gives_list {child : Cells.Zval → Desc → Exits Stop World Cells.Handle} {table : Table}
    {y : Cells.Zval} {d : Desc} {x : Native} (hchild : Gives (child y d) x)
    (htable : table.entries = [(.index 0, y)]) :
    Gives (do
      Cells.allocate
      Exits.enclosed CellInput.zero CellInput.free (buildArray child plainEngine argpos table (.list d)))
      (.list [x]) := by
  intro w hw
  have hlist : table.isList := by
    unfold Table.isList
    rw [htable]
    rfl
  have hw' : Cells.Granted w.allocate.memory := hw
  have hends := hchild w.allocate.allocate hw
  simp only [bind, Exits.andThen, allocate_granted hw, Exits.enclosed, buildArray, Cells.buildList, hlist,
    if_true, Cells.openValues, Exits.within, allocate_granted hw', Cells.modifyInput, Exits.step,
    Cells.buildElements, htable, Exits.each, Option.any_none, Bool.false_eq_true, if_false]
  match child y d w.allocate.allocate, hends with
  | (.ok h, w'), hends => exact ⟨congrArg (fun x ↦ Native.list [x]) hends.1, hends.2⟩

theorem nest_built (hi : i + j + 1 = k) :
    Gives (buildValueBelow plainEngine (nestHeap k) argpos (levels + j + 2) depth (.array i)
      (nestType (j + 1)).descFill) (nestNative (j + 1)) := by
  induction j generalizing i depth with
  | zero =>
    refine gives_list ?_ rfl
    rw [if_neg (by omega)]
    exact fun w hw ↦ ⟨rfl, hw⟩
  | succ j ih =>
    refine gives_list ?_ rfl
    rw [if_pos (by omega)]
    exact ih (by omega)

theorem buildValue_nest (hj : j < 128) : ∃ h w',
    buildValue plainEngine (nestHeap (j + 1)) 1 0 (.array 0) (nestType (j + 1)).descFill .empty = (.ok h, w') ∧
      h.2 = nestNative (j + 1) := by
  have hlevels : Cells.appenderMaxDepth + 1 - 0 = 127 - j + j + 2 := by
    show 129 = _
    omega
  have hbuilt : Gives (buildValue plainEngine (nestHeap (j + 1)) 1 0 (.array 0) (nestType (j + 1)).descFill)
      (nestNative (j + 1)) := by
    unfold buildValue
    rw [hlevels]
    exact nest_built (by omega)
  have hends := hbuilt .empty fun _ ↦ rfl
  match buildValue plainEngine (nestHeap (j + 1)) 1 0 (.array 0) (nestType (j + 1)).descFill .empty, hends with
  | (.ok h, w'), hends => exact ⟨h, w', rfl, hends.1⟩

end Nests

section Columns

open Cells (buildValue buildValueBelow World plainEngine)

variable {B : Bridge} {H : Heap} {engine : Engine} {argpos depth row rowCount : ℕ} {z : Cells.Zval}
  {t : ColumnType} {vec : Vector} {w w' : World} {M : ℕ → Cells.Memory} {hs : List Cells.Handle}
  {ss : List Cells.StringHandle} {h : Cells.Handle}

/-- What a column gives for a value: an object around what has children. -/
def columnForm (B : Bridge) (vec : Vector) (v : Zval) : Zval :=
  match vec with
  | .leaf _ _ _ => v
  | vec => if isNull v then v else wrappedZval (.string (B.declaration vec)) v

theorem columnZval_eq (ht : PlainColumn t) (htype : OfType t vec) (v : Zval) :
    columnZval B vec v = some (columnForm B vec v) := by
  unfold columnZval
  cases t with
  | leaf type =>
    obtain ⟨validity, data, rfl⟩ := htype
    have hwrapped : wrappedColumn B (.leaf type validity data) v = some v := by
      cases type with
      | varchar typeAlias => exact if_neg ht
      | variant => exact ht.elim
      | _ => rfl
    rw [hwrapped]
    exact ite_self (some v)
  | list child =>
    obtain ⟨validity, entries, size, childVec, rfl, -⟩ := htype
    exact (apply_ite some ..).symm
  | array child count =>
    obtain ⟨validity, size, childVec, rfl, -⟩ := htype
    exact (apply_ite some ..).symm
  | struct tuple names distinct child =>
    obtain ⟨validity, fields, rfl, -⟩ := htype
    exact (apply_ite some ..).symm
  | map key value =>
    obtain ⟨validity, entries, size, keyVec, valueVec, rfl, -⟩ := htype
    exact (apply_ite some ..).symm
  | union names member => exact ht.elim

theorem shape_of_build (hw : w.Owes M hs ss)
    (hbuild : buildValue engine H argpos depth z t.descFill w = (.ok h, w')) :
    t.descFill.Shape engine H z h.2 := by
  have hbuilds : Cells.BuildsShape engine H z t.descFill (buildValue engine H argpos depth z t.descFill) :=
    Cells.buildValueBelow_buildsShape t.descFill
  have hends := hbuilds M hs ss w hw
  rw [hbuild] at hends
  exact hends.1

/-- A value that the appender has built for a column is read back, at the depth
where it stands, if and only if it has no more levels than are left. -/
theorem column_readback (ht : PlainColumn t) (hw : w.Owes M hs ss)
    (hbuild : buildValue engine H argpos depth z t.descFill w = (.ok h, w')) (hkinded : Kinded H t z)
    (htype : OfType t vec) (hstored : Stored t vec row h.2) (hrow : row < rowCount)
    (hsized : vec.Sized rowCount) (haddressed : vec.Addressed rowCount) :
    ((∃ v, fetchAt B depth vec row rowCount = some v ∧ Same H t z v) ↔
      H.Within (valueDepth - depth) z) ∧
    (depth = 0 → ((∃ v, fetchColumn B vec row rowCount = some (columnForm B vec v) ∧ Same H t z v) ↔
      H.Within valueDepth z)) := by
  have hplain := plain_of_type ht htype
  have hshape := shape_of_build hw hbuild
  have hread (n : ℕ) : ReadsBack B H n t z vec row rowCount :=
    readsBack ht ⟨hshape, hkinded, hstored, hrow, hsized, haddressed⟩
  rw [fetchAt_eq hplain hsized haddressed.lt, fetchColumn_eq hplain hsized haddressed.lt]
  refine ⟨(hread _).found_iff, fun _ ↦ ?_⟩
  have hcolumn : convertedZval B true vec row rowCount =
      (nativeZval B valueDepth vec row rowCount).map (columnForm B vec) := by
    unfold convertedZval
    rw [Option.map_eq_bind]
    exact congrArg _ (funext fun v ↦ columnZval_eq ht htype v)
  rw [hcolumn]
  refine ⟨fun ⟨v, hv, _⟩ ↦ ?_, fun hwithin ↦ ?_⟩
  · by_contra hdeep
    rw [(hread valueDepth).2 hdeep] at hv
    cases hv
  · obtain ⟨v, hv, hsame⟩ := (hread valueDepth).1 hwithin
    exact ⟨v, by rw [hv]; rfl, hsame⟩

theorem column_readback_nest : ∃ h w' v,
    buildValue plainEngine (nestHeap 127) 1 0 (.array 0) (nestType 127).descFill .empty = (.ok h, w') ∧
      fetchColumn plainBridge (nestVector 127) 0 1 = some (columnForm plainBridge (nestVector 127) v) ∧
      Same (nestHeap 127) (nestType 127) (.array 0) v := by
  obtain ⟨h, w', hbuild, hh⟩ := buildValue_nest (j := 126) (by decide)
  have hread := column_readback (B := plainBridge) nest_plain World.owes_empty hbuild (nest_kinded rfl)
    nest_ofType (hh ▸ nest_stored) Nat.zero_lt_one nest_sized nest_addressed
  have hwithin : (nestHeap 127).Within valueDepth (.array 0) := (nestHeap_within (by decide)).mpr (by decide)
  obtain ⟨v, hv, hsame⟩ := (hread.2 rfl).mpr hwithin
  exact ⟨h, w', v, hbuild, hv, hsame⟩

/-- The appender takes 128 lists around an integer, which cannot be read. -/
theorem column_lost : ∃ h w',
    buildValue plainEngine (nestHeap 128) 1 0 (.array 0) (nestType 128).descFill .empty = (.ok h, w') ∧
      Kinded (nestHeap 128) (nestType 128) (.array 0) ∧ Stored (nestType 128) (nestVector 128) 0 h.2 ∧
      fetchColumn plainBridge (nestVector 128) 0 1 = none := by
  obtain ⟨h, w', hbuild, hh⟩ := buildValue_nest (j := 127) (by decide)
  have hstored : Stored (nestType 128) (nestVector 128) 0 h.2 := hh ▸ nest_stored
  have hkinded : Kinded (nestHeap 128) (nestType 128) (.array 0) := nest_kinded rfl
  refine ⟨h, w', hbuild, hkinded, hstored, ?_⟩
  have hread : ReadsBack plainBridge (nestHeap 128) valueDepth (nestType 128) (.array 0) (nestVector 128) 0 1 :=
    readsBack nest_plain ⟨shape_of_build World.owes_empty hbuild, hkinded, hstored, Nat.zero_lt_one,
      nest_sized, nest_addressed⟩
  have hdeep : ¬ (nestHeap 128).Within valueDepth (.array 0) := by
    rw [nestHeap_within (by decide)]
    decide
  rw [fetchColumn_eq (plain_of_type nest_plain nest_ofType) nest_sized (by decide)]
  unfold convertedZval
  rw [hread.2 hdeep]
  rfl

end Columns

end PdoDuckdb.Structures
