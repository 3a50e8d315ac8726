import PdoDuckdb.Structures.Vectors
import Mathlib.Data.List.FinRange
import Mathlib.Data.List.Induction

namespace PdoDuckdb.Structures

/-- `duckdb_type`, as far as `pdo_duckdb_type_decodable` names it. -/
inductive TypeId
  | boolean | tinyint | smallint | integer | bigint | utinyint | usmallint | uinteger | ubigint
  | hugeint | uhugeint | float | double | date | time | timeTz | timeNs | timestamp | timestampTz
  | timestampS | timestampMs | timestampNs | timestampTzNs | interval | uuid | decimal | enum
  | varchar | blob | bit | bignum | geometry | variant | list | array | struct | map | union | sqlNull
  | other (id : ℕ)
deriving DecidableEq, Repr

/-- `pdo_duckdb_type_decodable`; `test` is the macro of a test build. -/
def typeDecodable (test : Option TypeId) (tid : TypeId) : Bool :=
  if test = some tid then false
  else
    match tid with
    | .other _ => false
    | _ => true

/-- `PDO_DUCKDB_TYPE_OPAQUE`. -/
def typeOpaque (v2 : Bool) (test : Option TypeId) (tid : TypeId) : Bool :=
  v2 && !typeDecodable test tid

inductive Container
  | list
  | array (size : UInt64)
  | map
  | struct (count : ℕ)
  | union (count : ℕ)
deriving DecidableEq, Repr

namespace Container

def id : Container → TypeId
  | .list => .list
  | .array _ => .array
  | .map => .map
  | .struct _ => .struct
  | .union _ => .union

/-- `pdo_duckdb_variant_probe_arity`. -/
@[reducible]
def arity : Container → ℕ
  | .list => 1
  | .array _ => 1
  | .map => 2
  | .struct count => count
  | .union count => count

/-- The loops over lists and arrays take their only probe without a look at it. -/
def looks : Container → Bool
  | .list => false
  | .array _ => false
  | .map => true
  | .struct _ => true
  | .union _ => true

def slot : (c : Container) → Fin c.arity → ℕ
  | .list, i => i
  | .array _, i => i
  | .map, i => i
  | .struct _, i => i
  | .union _, i => i + 1

end Container

/-- A `duckdb_logical_type`, as far as the probes look into it. -/
inductive TypeTree
  | scalar (tid : TypeId)
  | container (c : Container) (child : Fin c.arity → TypeTree)

namespace TypeTree

/-- `duckdb_get_type_id`. -/
def id : TypeTree → TypeId
  | .scalar tid => tid
  | .container c _ => c.id

/-- `pdo_duckdb_type_has_variant`. -/
def hasVariant (isOpaque : TypeId → Bool) : TypeTree → Bool
  | .scalar tid => isOpaque tid
  | .container c child => isOpaque c.id || (List.finRange c.arity).any fun i ↦ (child i).hasVariant isOpaque

def typeAt : TypeTree → List ℕ → Option TypeTree
  | t, [] => some t
  | .scalar _, _ :: _ => none
  | .container c child, k :: path =>
    ((List.finRange c.arity).find? fun i ↦ c.slot i = k).bind fun i ↦ (child i).typeAt path

end TypeTree

/-- What `calloc` answers while a probe is built: for the probe of each place and
for its array of children. -/
structure Grants where
  probe : List ℕ → Bool
  children : List ℕ → Bool

def Grants.under (m : Grants) (i : ℕ) : Grants := ⟨fun path ↦ m.probe (i :: path), fun path ↦ m.children (i :: path)⟩

/-- `pdo_duckdb_variant_probe`. A `variant` without a type is the stand-in
`pdo_duckdb_variant_probe_any`. -/
inductive Probe
  | null
  | variant (opaqueType : Option TypeId)
  | node (c : Container) (child : Fin c.arity → Probe)

namespace Probe

def isNull : Probe → Bool
  | .null => true
  | _ => false

/-- `pdo_duckdb_variant_probe_build`. -/
def build (isOpaque : TypeId → Bool) : TypeTree → Grants → Probe
  | .scalar tid, m =>
    if isOpaque tid then .variant (if m.probe [] then some tid else none) else .null
  | .container c child, m =>
    if isOpaque c.id then .variant (if m.probe [] then some c.id else none)
    else if c.arity = 0 then .null
    else if ¬ m.children [] then
      if (TypeTree.container c child).hasVariant isOpaque then .variant none else .null
    else
      let children := fun i ↦ build isOpaque (child i) (m.under (c.slot i))
      if (List.finRange c.arity).all fun i ↦ (children i).isNull then .null
      else if m.probe [] then .node c children
      else .variant none

end Probe

/-- What a search for undecodable values ends with: nothing, a value of a type,
if the probe knows it, or a probe that is not there. -/
inductive Found
  | miss
  | hit (tid : Option TypeId)
  | fault
deriving DecidableEq, Repr

def firstFound : List Found → Found
  | [] => .miss
  | .miss :: rest => firstFound rest
  | found :: _ => found

/-- `duckdb_validity_row_is_valid`, `none` outside the mask. -/
def Vector.rowIsValid (vec : Vector) (row : ℕ) : Option Bool :=
  match vec.validity with
  | none => some true
  | some l => l[row]?

/-- The rows that the loops of `pdo_duckdb_variant_probe_hit` go through, each with
the index of the child's probe; `none` when the row itself is out of range. -/
def visits : (c : Container) → Vector → ℕ → Option (List (Fin c.arity × Vector × ℕ))
  | .list, .list _ entries size child, row => entries[row]?.map fun e ↦
    if size.toNat < e.offset.toNat ∨ size.toNat - e.offset.toNat < e.length.toNat then []
    else (List.range e.length.toNat).map fun i ↦ (⟨0, Nat.one_pos⟩, child, e.offset.toNat + i)
  | .map, .map _ entries size key value, row => entries[row]?.map fun e ↦
    if size.toNat < e.offset.toNat ∨ size.toNat - e.offset.toNat < e.length.toNat then []
    else (List.range e.length.toNat).flatMap fun i ↦
      [(⟨0, Nat.two_pos⟩, key, e.offset.toNat + i), (⟨1, Nat.one_lt_two⟩, value, e.offset.toNat + i)]
  | .array n, .array _ _ child, row => some <|
    if n ≠ 0 ∧ 0xffffffffffffffff / n.toNat < row then []
    else (List.range n.toNat).map fun i ↦
      (⟨0, Nat.one_pos⟩, child, (row * n.toNat + i) % 0x10000000000000000)
  | .struct count, .struct _ _ names child, row => some <|
    (List.finRange count).filterMap fun i ↦
      if h : i.val < names.length then some (i, child ⟨i, h⟩, row) else none
  | .union count, .union _ tags names member, row => tags[row]?.map fun tag ↦
    if h : tag.toNat < count then
      if hname : tag.toNat < names.length then [(⟨tag.toNat, h⟩, member ⟨tag.toNat, hname⟩, row)] else []
    else []
  | _, _, _ => none

/-- `pdo_duckdb_variant_probe_hit`. -/
def Probe.search : Probe → Vector → ℕ → Found
  | .null, _, _ => .fault
  | .variant opaqueType, vec, row =>
    match vec.rowIsValid row with
    | none => .fault
    | some false => .miss
    | some true => .hit opaqueType
  | .node c child, vec, row =>
    match vec.rowIsValid row with
    | none => .fault
    | some false => .miss
    | some true =>
      match visits c vec row with
      | none => .fault
      | some rows => firstFound (rows.map fun v ↦
        if c.looks ∧ (child v.1).isNull then .miss else (child v.1).search v.2.1 v.2.2)

/-- `pdo_duckdb_stmt_cache_columns`: the probes of the columns, each with its own
answers, and the columns that have one. -/
def cacheProbes (isOpaque : TypeId → Bool) (types : List TypeTree) (memory : ℕ → Grants) : List Probe :=
  types.mapIdx fun c t ↦ Probe.build isOpaque t (memory c)

def variantCols (probes : List Probe) : List ℕ :=
  (List.range probes.length).filter fun c ↦ probes[c]?.any fun p ↦ !p.isNull

/-- `pdo_duckdb_stmt_row_has_variant`. -/
def rowHasVariant (probes : List Probe) (vecs : List Vector) (cur : ℕ) : Found :=
  firstFound ((variantCols probes).map fun c ↦
    match vecs[c]?, probes[c]? with
    | some vec, some p => p.search vec cur
    | _, _ => .miss)

/-- One step of `Vector.Reached`, to the child at a place. -/
inductive Vector.Below : Vector → ℕ → ℕ → Vector → ℕ → Prop
  | list {validity : Option (List Bool)} {entries : List ListEntry} {size : UInt64} {child : Vector}
      {row i : ℕ} {e : ListEntry} : (list validity entries size child).ValidAt row →
      entries[row]? = some e → i < e.length.toNat →
      Below (.list validity entries size child) row 0 child (e.offset.toNat + i)
  | key {validity : Option (List Bool)} {entries : List ListEntry} {size : UInt64} {key value : Vector}
      {row i : ℕ} {e : ListEntry} : (map validity entries size key value).ValidAt row →
      entries[row]? = some e → i < e.length.toNat →
      Below (.map validity entries size key value) row 0 key (e.offset.toNat + i)
  | value {validity : Option (List Bool)} {entries : List ListEntry} {size : UInt64} {key value : Vector}
      {row i : ℕ} {e : ListEntry} : (map validity entries size key value).ValidAt row →
      entries[row]? = some e → i < e.length.toNat →
      Below (.map validity entries size key value) row 1 value (e.offset.toNat + i)
  | array {validity : Option (List Bool)} {size : UInt64} {child : Vector} {row i : ℕ} :
      (array validity size child).ValidAt row → i < size.toNat →
      Below (.array validity size child) row 0 child (row * size.toNat + i)
  | struct {validity : Option (List Bool)} {tuple : Bool} {names : List (List Byte)}
      {child : Fin names.length → Vector} {row : ℕ} (i : Fin names.length) :
      (struct validity tuple names child).ValidAt row →
      Below (.struct validity tuple names child) row i.val (child i) row
  | union {validity : Option (List Bool)} {tags : List UInt8} {names : List (List Byte)}
      {member : Fin names.length → Vector} {row : ℕ} (i : Fin names.length) :
      (union validity tags names member).ValidAt row → (tags[row]?).map UInt8.toNat = some i.val →
      Below (.union validity tags names member) row (i.val + 1) (member i) row

namespace Vector

variable {root vec v v' : Vector} {start row r r' k n : ℕ} {path : List ℕ}

theorem Below.validAt (h : Below vec row k v r) : vec.ValidAt row := by
  cases h <;> assumption

theorem Reached.snoc (h : Reached root start path v r) (hb : Below v r k v' r') :
    Reached root start (path ++ [k]) v' r' := by
  cases hb with
  | list hvalid he hi => exact .list h hvalid he hi
  | key hvalid he hi => exact .key h hvalid he hi
  | value hvalid he hi => exact .value h hvalid he hi
  | array hvalid hi => exact .array h hvalid hi
  | struct i hvalid => exact .struct i h hvalid
  | union i hvalid htag => exact .union i h hvalid htag

theorem Reached.last (h : Reached root start path v' r') :
    (path = [] ∧ v' = root ∧ r' = start) ∨
      ∃ front k v r, path = front ++ [k] ∧ Reached root start front v r ∧ Below v r k v' r' := by
  cases h with
  | root => exact .inl ⟨rfl, rfl, rfl⟩
  | list h hvalid he hi => exact .inr ⟨_, _, _, _, rfl, h, .list hvalid he hi⟩
  | key h hvalid he hi => exact .inr ⟨_, _, _, _, rfl, h, .key hvalid he hi⟩
  | value h hvalid he hi => exact .inr ⟨_, _, _, _, rfl, h, .value hvalid he hi⟩
  | array h hvalid hi => exact .inr ⟨_, _, _, _, rfl, h, .array hvalid hi⟩
  | struct i h hvalid => exact .inr ⟨_, _, _, _, rfl, h, .struct i hvalid⟩
  | union i h hvalid htag => exact .inr ⟨_, _, _, _, rfl, h, .union i hvalid htag⟩

theorem reached_nil : Reached root start [] v r ↔ v = root ∧ r = start := by
  constructor
  · intro h
    rcases h.last with ⟨_, hv, hr⟩ | ⟨front, k, _, _, hpath, _⟩
    · exact ⟨hv, hr⟩
    · exact absurd hpath.symm (List.concat_ne_nil k front)
  · rintro ⟨rfl, rfl⟩
    exact .root

theorem reached_concat :
    Reached root start (path ++ [k]) v' r' ↔ ∃ v r, Reached root start path v r ∧ Below v r k v' r' := by
  constructor
  · intro h
    rcases h.last with ⟨hpath, _⟩ | ⟨front, k', v, r, hpath, hfront, hb⟩
    · exact absurd hpath (List.concat_ne_nil k path)
    · obtain ⟨rfl, hk⟩ := List.append_inj' hpath rfl
      obtain rfl := List.head_eq_of_cons_eq hk
      exact ⟨v, r, hfront, hb⟩
  · rintro ⟨v, r, h, hb⟩
    exact h.snoc hb

theorem reached_cons :
    Reached root start (k :: path) v' r' ↔ ∃ v r, Below root start k v r ∧ Reached v r path v' r' := by
  induction path using List.reverseRecOn generalizing v' r' with
  | nil =>
    rw [← List.nil_append [k], reached_concat]
    simp only [reached_nil]
    constructor
    · rintro ⟨_, _, ⟨rfl, rfl⟩, hb⟩
      exact ⟨_, _, hb, rfl, rfl⟩
    · rintro ⟨_, _, hb, rfl, rfl⟩
      exact ⟨_, _, ⟨rfl, rfl⟩, hb⟩
  | append_singleton path j ih =>
    rw [← List.cons_append, reached_concat]
    simp only [reached_concat, ih]
    constructor
    · rintro ⟨v₁, r₁, ⟨v, r, hb, h⟩, hj⟩
      exact ⟨v, r, hb, v₁, r₁, h, hj⟩
    · rintro ⟨v, r, hb, v₁, r₁, h, hj⟩
      exact ⟨v₁, r₁, ⟨v, r, hb, h⟩, hj⟩

def EntryAt : Vector → ℕ → Prop
  | .list _ entries size _, row => ∀ e ∈ entries[row]?, e.offset.toNat + e.length.toNat ≤ size.toNat
  | .map _ entries size _ _, row => ∀ e ∈ entries[row]?, e.offset.toNat + e.length.toNat ≤ size.toNat
  | .array _ size _, row => row * size.toNat + size.toNat ≤ 0x10000000000000000
  | _, _ => True

theorem Sized.rowIsValid (hsized : vec.Sized n) (hrow : row < n) :
    ∃ b, vec.rowIsValid row = some b ∧ (b = true ↔ vec.ValidAt row) := by
  have hlength := hsized.validity
  unfold Vector.rowIsValid ValidAt
  cases hv : vec.validity with
  | none => exact ⟨true, rfl, by simp⟩
  | some l =>
    have hl : row < l.length := (hlength l hv).symm ▸ hrow
    refine ⟨l[row], List.getElem?_eq_getElem hl, ?_⟩
    simp [List.getElem?_eq_getElem hl]

theorem Below.sized (h : Below vec row k v r) (hsized : vec.Sized n) (hrow : row < n)
    (hentry : vec.EntryAt row) : ∃ m, v.Sized m ∧ r < m := by
  cases h with
  | list hvalid he hi =>
    have := hentry _ he
    exact ⟨_, hsized.2.2, by omega⟩
  | key hvalid he hi =>
    have := hentry _ he
    exact ⟨_, hsized.2.2.1, by omega⟩
  | value hvalid he hi =>
    have := hentry _ he
    exact ⟨_, hsized.2.2.2, by omega⟩
  | array hvalid hi => exact ⟨_, hsized.2, by nlinarith⟩
  | struct i hvalid => exact ⟨n, hsized.2 i, hrow⟩
  | union i hvalid htag => exact ⟨n, hsized.2.2 i, hrow⟩

end Vector

def Container.Shapes : Container → Vector → Prop
  | .list, .list .. => True
  | .array n, .array _ size _ => size = n
  | .map, .map .. => True
  | .struct count, .struct _ _ names _ => names.length = count
  | .union count, .union _ _ names _ => names.length = count
  | _, _ => False

/-- The vectors of a value, as the engine lays them out: rows that are there, and
below types that the driver knows also the layout. -/
structure Laid (isOpaque : TypeId → Bool) (t : TypeTree) (vec : Vector) (n row : ℕ) : Prop where
  sized : vec.Sized n
  lt : row < n
  entries : ∀ path v r, vec.Reached row path v r → v.ValidAt r → v.EntryAt r
  shapes : ∀ path v r c child, vec.Reached row path v r → v.ValidAt r →
    t.typeAt path = some (.container c child) → isOpaque c.id = false → c.Shapes v

/-- A plain walk through the value meets, below nothing that is NULL, a value of
an undecodable type that is not NULL itself. -/
def HoldsOpaque (isOpaque : TypeId → Bool) (t : TypeTree) (vec : Vector) (row : ℕ) (tid : TypeId) : Prop :=
  isOpaque tid ∧ ∃ path v r s, vec.Reached row path v r ∧ v.ValidAt r ∧ t.typeAt path = some s ∧ s.id = tid

namespace Container

variable {c : Container}

theorem slot_injective : Function.Injective c.slot := by
  intro i j h
  cases c with
  | list => exact Fin.ext h
  | array size => exact Fin.ext h
  | map => exact Fin.ext h
  | struct count => exact Fin.ext h
  | union count => exact Fin.ext (Nat.succ.inj h)

/-- Without a look at the probes there is only one child. -/
theorem eq_of_not_looks (h : c.looks = false) (i j : Fin c.arity) : i = j := by
  cases c with
  | list => exact Subsingleton.elim (α := Fin 1) i j
  | array size => exact Subsingleton.elim (α := Fin 1) i j
  | map => cases h
  | struct count => cases h
  | union count => cases h

end Container

section Visits

variable {c : Container} {vec v : Vector} {row r n : ℕ} {i : Fin c.arity}

/-- The loops of the search go to the rows below, and to no others. -/
theorem exists_visits (hshape : c.Shapes vec) (hsized : vec.Sized n) (hrow : row < n)
    (hvalid : vec.ValidAt row) (hentry : vec.EntryAt row) :
    ∃ rows, visits c vec row = some rows ∧
      ∀ i v r, (i, v, r) ∈ rows ↔ vec.Below row (c.slot i) v r := by
  match c, vec, hshape with
  | .list, .list validity entries size child, _ =>
    have he := List.getElem?_eq_getElem (hsized.2.1.symm ▸ hrow : row < entries.length)
    have hin := hentry _ he
    refine ⟨_, by rw [visits, he]; exact congrArg some (if_neg (by omega)), fun i v r ↦ ?_⟩
    obtain rfl : i = ⟨0, Nat.one_pos⟩ := Subsingleton.elim (α := Fin 1) i _
    simp only [List.mem_map, List.mem_range, Prod.mk.injEq, true_and]
    constructor
    · rintro ⟨j, hj, rfl, rfl⟩
      exact .list hvalid he hj
    · intro h
      cases h with
      | list _ he' hj =>
        obtain rfl := Option.some.inj (he.symm.trans he')
        exact ⟨_, hj, rfl, rfl⟩
  | .map, .map validity entries size key value, _ =>
    have he := List.getElem?_eq_getElem (hsized.2.1.symm ▸ hrow : row < entries.length)
    have hin := hentry _ he
    refine ⟨_, by rw [visits, he]; exact congrArg some (if_neg (by omega)), fun i v r ↦ ?_⟩
    simp only [List.mem_flatMap, List.mem_range, List.mem_cons, List.not_mem_nil, or_false, Prod.mk.injEq]
    constructor
    · rintro ⟨j, hj, ⟨rfl, rfl, rfl⟩ | ⟨rfl, rfl, rfl⟩⟩
      · exact .key hvalid he hj
      · exact .value hvalid he hj
    · intro h
      have hcases : i = ⟨0, Nat.two_pos⟩ ∨ i = ⟨1, Nat.one_lt_two⟩ := by
        match i with
        | ⟨0, _⟩ => exact .inl rfl
        | ⟨1, _⟩ => exact .inr rfl
      rcases hcases with rfl | rfl
      · cases h with
        | key _ he' hj =>
          obtain rfl := Option.some.inj (he.symm.trans he')
          exact ⟨_, hj, .inl ⟨rfl, rfl, rfl⟩⟩
      · cases h with
        | value _ he' hj =>
          obtain rfl := Option.some.inj (he.symm.trans he')
          exact ⟨_, hj, .inr ⟨rfl, rfl, rfl⟩⟩
  | .array n, .array validity size child, hsize =>
    obtain rfl := hsize
    have hrange : row * size.toNat + size.toNat ≤ 0x10000000000000000 := hentry
    have hguard : ¬ (size ≠ 0 ∧ 0xffffffffffffffff / size.toNat < row) := by
      rintro ⟨hne, hlt⟩
      have hpos : 0 < size.toNat := Nat.pos_of_ne_zero fun h ↦ hne (UInt64.toNat_inj.mp h)
      rw [Nat.div_lt_iff_lt_mul hpos] at hlt
      omega
    refine ⟨_, congrArg some (if_neg hguard), fun i v r ↦ ?_⟩
    obtain rfl : i = ⟨0, Nat.one_pos⟩ := Subsingleton.elim (α := Fin 1) i _
    simp only [List.mem_map, List.mem_range, Prod.mk.injEq, true_and]
    constructor
    · rintro ⟨j, hj, rfl, rfl⟩
      rw [Nat.mod_eq_of_lt (by omega)]
      exact .array hvalid hj
    · intro h
      cases h with
      | array _ hj => exact ⟨_, hj, rfl, Nat.mod_eq_of_lt (by omega)⟩
  | .struct count, .struct validity tuple names child, hnames =>
    obtain rfl : names.length = count := hnames
    refine ⟨_, rfl, fun i v r ↦ ?_⟩
    simp only [List.mem_filterMap, List.mem_finRange, true_and]
    constructor
    · rintro ⟨j, hj⟩
      rw [dif_pos j.isLt] at hj
      obtain ⟨rfl, rfl, rfl⟩ := Prod.mk.inj (Option.some.inj hj)
      exact .struct j hvalid
    · intro h
      refine ⟨i, ?_⟩
      rw [dif_pos i.isLt]
      generalize hk : (Container.struct names.length).slot i = k at h
      cases h with
      | struct j _ =>
        obtain rfl : i = j := Fin.ext hk
        rfl
  | .union count, .union validity tags names member, hnames =>
    obtain rfl : names.length = count := hnames
    obtain ⟨tag, ht⟩ : ∃ tag, tags[row]? = some tag :=
      ⟨_, List.getElem?_eq_getElem (hsized.2.1.symm ▸ hrow)⟩
    refine ⟨_, by rw [visits, ht]; rfl, fun i v r ↦ ?_⟩
    dsimp only
    constructor
    · intro h
      split at h
      · rename_i htag
        cases List.mem_singleton.mp h
        exact .union ⟨_, htag⟩ hvalid (congrArg (Option.map UInt8.toNat) ht)
      · exact absurd h List.not_mem_nil
    · intro h
      generalize hk : (Container.union names.length).slot i = k at h
      cases h with
      | union j _ htag =>
        obtain rfl : i = j := Fin.ext (Nat.succ.inj hk)
        rw [ht] at htag
        have htag : tag.toNat = i.val := Option.some.inj htag
        obtain ⟨_, hi⟩ := i
        subst htag
        rw [dif_pos hi, dif_pos hi, List.mem_singleton]

end Visits

section Searches

variable {isOpaque : TypeId → Bool} {c : Container} {child : Fin c.arity → TypeTree} {t s : TypeTree}
  {path : List ℕ} {vec v : Vector} {row r n k : ℕ} {i : Fin c.arity} {tid : TypeId} {fs : List Found}

theorem TypeTree.typeAt_slot :
    (TypeTree.container c child).typeAt (c.slot i :: path) = (child i).typeAt path := by
  rw [TypeTree.typeAt]
  have hfind : (List.finRange c.arity).find? (fun j ↦ c.slot j = c.slot i) = some i := by
    rw [List.find?_eq_some_iff_getElem]
    refine ⟨by simp, i, by simp, by simp, fun j hj ↦ ?_⟩
    have hne : c.slot ⟨j, by omega⟩ ≠ c.slot i := fun h ↦
      absurd (congrArg Fin.val (Container.slot_injective h)) (by simpa using hj.ne)
    simpa using hne
  rw [hfind]
  rfl

theorem TypeTree.exists_slot (h : (TypeTree.container c child).typeAt (k :: path) = some s) :
    ∃ i, c.slot i = k ∧ (child i).typeAt path = some s := by
  rw [TypeTree.typeAt] at h
  obtain ⟨i, hi, hs⟩ := Option.bind_eq_some_iff.mp h
  have hslot := List.find?_some hi
  exact ⟨i, of_decide_eq_true hslot, hs⟩

theorem TypeTree.hasVariant_of_typeAt (h : t.typeAt path = some s) (hs : isOpaque s.id = true) :
    t.hasVariant isOpaque = true := by
  induction t generalizing path with
  | scalar tid =>
    cases path with
    | nil =>
      obtain rfl := Option.some.inj h
      exact hs
    | cons k path => cases h
  | container c child ih =>
    rw [TypeTree.hasVariant, Bool.or_eq_true, List.any_eq_true]
    cases path with
    | nil =>
      obtain rfl := Option.some.inj h
      exact .inl hs
    | cons k path =>
      obtain ⟨i, _, hi⟩ := TypeTree.exists_slot h
      exact .inr ⟨i, List.mem_finRange i, ih i hi⟩

/-- There is a probe where there is something to find, whatever `calloc` answers. -/
theorem Probe.isNull_build (t : TypeTree) (m : Grants) :
    (Probe.build isOpaque t m).isNull = !t.hasVariant isOpaque := by
  induction t generalizing m with
  | scalar tid =>
    unfold Probe.build TypeTree.hasVariant
    cases isOpaque tid <;> rfl
  | container c child ih =>
    rw [Probe.build]
    by_cases ho : isOpaque c.id = true
    · simp [ho, Probe.isNull, TypeTree.hasVariant]
    by_cases hzero : c.arity = 0
    · have hnone : List.finRange c.arity = [] := by simp [List.finRange_eq_nil_iff, hzero]
      simp [ho, hzero, Probe.isNull, TypeTree.hasVariant, hnone]
    rw [if_neg ho, if_neg hzero]
    split
    · split
      · rename_i hv
        rw [hv]
        rfl
      · rename_i hv
        rw [Bool.eq_false_iff.mpr hv]
        rfl
    · have hall : ((List.finRange c.arity).all fun i ↦ (build isOpaque (child i) (m.under (c.slot i))).isNull) =
          !(TypeTree.container c child).hasVariant isOpaque := by
        simp only [ih, TypeTree.hasVariant, ho, Bool.false_or]
        rw [List.not_any_eq_all_not]
      dsimp only
      rw [hall]
      cases (TypeTree.container c child).hasVariant isOpaque with
      | false => rfl
      | true =>
        cases m.probe [] <;> rfl

theorem HoldsOpaque.hasVariant (h : HoldsOpaque isOpaque t vec row tid) : t.hasVariant isOpaque = true := by
  obtain ⟨ho, path, v, r, s, _, _, hs, rfl⟩ := h
  exact TypeTree.hasVariant_of_typeAt hs ho

theorem holdsOpaque_self (ho : isOpaque t.id = true) (hvalid : vec.ValidAt row) : HoldsOpaque isOpaque t vec row t.id :=
  ⟨ho, [], vec, row, t, .root, hvalid, by cases t <;> rfl, rfl⟩

theorem HoldsOpaque.validAt (h : HoldsOpaque isOpaque t vec row tid) : vec.ValidAt row := by
  obtain ⟨ho, path, v, r, s, hreach, hvalid, hs, rfl⟩ := h
  cases path with
  | nil =>
    obtain ⟨rfl, rfl⟩ := Vector.reached_nil.mp hreach
    exact hvalid
  | cons k path =>
    obtain ⟨_, _, hb, _⟩ := Vector.reached_cons.mp hreach
    exact hb.validAt

theorem holdsOpaque_container (ho : isOpaque c.id = false) :
    HoldsOpaque isOpaque (.container c child) vec row tid ↔
      ∃ i v r, vec.Below row (c.slot i) v r ∧ HoldsOpaque isOpaque (child i) v r tid := by
  constructor
  · rintro ⟨htid, path, v, r, s, hreach, hvalid, hs, rfl⟩
    cases path with
    | nil =>
      obtain rfl := Option.some.inj hs
      exact absurd htid (ho ▸ Bool.false_ne_true)
    | cons k path =>
      obtain ⟨i, rfl, hbelow⟩ := TypeTree.exists_slot hs
      obtain ⟨v', r', hb, hreach⟩ := Vector.reached_cons.mp hreach
      exact ⟨i, v', r', hb, htid, path, v, r, s, hreach, hvalid, hbelow, rfl⟩
  · rintro ⟨i, v, r, hb, htid, path, v', r', s, hreach, hvalid, hs, rfl⟩
    exact ⟨htid, c.slot i :: path, v', r', s, Vector.reached_cons.mpr ⟨v, r, hb, hreach⟩, hvalid,
      TypeTree.typeAt_slot.trans hs, rfl⟩

theorem Laid.below (h : Laid isOpaque (.container c child) vec n row) (hb : vec.Below row (c.slot i) v r) :
    ∃ m, Laid isOpaque (child i) v m r := by
  obtain ⟨m, hsized, hlt⟩ := hb.sized h.sized h.lt (h.entries [] vec row .root hb.validAt)
  refine ⟨m, hsized, hlt, fun path v' r' hreach ↦ ?_, fun path v' r' d grandchild hreach hvalid hs ↦ ?_⟩
  · exact h.entries (c.slot i :: path) v' r' (Vector.reached_cons.mpr ⟨v, r, hb, hreach⟩)
  · exact h.shapes (c.slot i :: path) v' r' d grandchild (Vector.reached_cons.mpr ⟨v, r, hb, hreach⟩) hvalid
      (TypeTree.typeAt_slot.trans hs)

theorem firstFound_mem (h : firstFound fs ≠ .miss) : firstFound fs ∈ fs := by
  induction fs with
  | nil => exact absurd rfl h
  | cons f fs ih =>
    cases f with
    | miss => exact List.mem_cons_of_mem _ (ih h)
    | hit tid => exact List.mem_cons_self
    | fault => exact List.mem_cons_self

theorem firstFound_eq_miss : firstFound fs = .miss ↔ ∀ f ∈ fs, f = .miss := by
  induction fs with
  | nil => simp [firstFound]
  | cons f fs ih =>
    cases f with
    | miss => simp [firstFound, ih]
    | hit tid => simp [firstFound]
    | fault => simp [firstFound]

/-- What a search tells of the undecodable values below, given the answers that
`calloc` gave for its probe. -/
structure Tells (holds : TypeId → Prop) (m : Grants) (found : Found) : Prop where
  sound : found ≠ .fault
  complete : ∀ tid, holds tid → found ≠ .miss
  named : ∀ tid, found = .hit (some tid) → holds tid
  granted : (∀ path, m.probe path ∧ m.children path) → found ≠ .hit none

theorem tells_null (t : TypeTree) (m : Grants) (h : t.hasVariant isOpaque = false) :
    Tells (HoldsOpaque isOpaque t vec row) m .miss where
  sound := Found.noConfusion
  complete _ hholds := absurd hholds.hasVariant (h ▸ Bool.false_ne_true)
  named _ hhit := Found.noConfusion hhit
  granted _ := Found.noConfusion

/-- Where memory is refused, any row that is not NULL is a hit. -/
theorem tells_standIn {m : Grants} (hsized : vec.Sized n) (hlt : row < n)
    (hm : ¬ ∀ path, m.probe path ∧ m.children path) :
    Tells (HoldsOpaque isOpaque t vec row) m ((Probe.variant none).search vec row) := by
  obtain ⟨b, hb, hvalid⟩ := hsized.rowIsValid hlt
  rw [Probe.search, hb]
  cases b with
  | false =>
    exact ⟨Found.noConfusion, fun _ h ↦ absurd (hvalid.mpr h.validAt) Bool.false_ne_true,
      fun _ h ↦ Found.noConfusion h, fun _ ↦ Found.noConfusion⟩
  | true =>
    exact ⟨Found.noConfusion, fun _ _ ↦ Found.noConfusion,
      fun _ h ↦ (by cases h), fun h ↦ absurd h hm⟩

theorem tells_opaque {m : Grants} (hsized : vec.Sized n) (hlt : row < n) (ho : isOpaque t.id = true) :
    Tells (HoldsOpaque isOpaque t vec row) m
      ((Probe.variant (if m.probe [] then some t.id else none)).search vec row) := by
  by_cases hm : m.probe [] = true
  · obtain ⟨b, hb, hvalid⟩ := hsized.rowIsValid hlt
    rw [if_pos hm, Probe.search, hb]
    cases b with
    | false =>
      exact ⟨Found.noConfusion, fun _ h ↦ absurd (hvalid.mpr h.validAt) Bool.false_ne_true,
        fun _ h ↦ Found.noConfusion h, fun _ ↦ Found.noConfusion⟩
    | true =>
      refine ⟨Found.noConfusion, fun _ _ ↦ Found.noConfusion, fun tid h ↦ ?_, fun _ h ↦ ?_⟩
      · obtain rfl := Option.some.inj (Found.hit.inj h)
        exact holdsOpaque_self ho (hvalid.mp rfl)
      · cases h
  · rw [if_neg hm]
    exact tells_standIn hsized hlt fun h ↦ hm (h []).1

/-- The loops over the children of a probe, when each search of a child tells. -/
theorem tells_node {m : Grants} {probe : Fin c.arity → Probe} (ho : isOpaque c.id = false)
    (hlaid : Laid isOpaque (.container c child) vec n row)
    (hchild : ∀ i v r, vec.Below row (c.slot i) v r → Tells (HoldsOpaque isOpaque (child i) v r) (m.under (c.slot i))
      (if c.looks ∧ (probe i).isNull then .miss else (probe i).search v r)) :
    Tells (HoldsOpaque isOpaque (.container c child) vec row) m ((Probe.node c probe).search vec row) := by
  obtain ⟨b, hb, hvalid⟩ := hlaid.sized.rowIsValid hlaid.lt
  rw [Probe.search, hb]
  cases b with
  | false =>
    exact ⟨Found.noConfusion, fun _ h ↦ absurd (hvalid.mpr h.validAt) Bool.false_ne_true,
      fun _ h ↦ Found.noConfusion h, fun _ ↦ Found.noConfusion⟩
  | true =>
    have hvalid := hvalid.mp rfl
    obtain ⟨rows, hrows, hmem⟩ := exists_visits (hlaid.shapes [] vec row c child .root hvalid rfl ho)
      hlaid.sized hlaid.lt hvalid (hlaid.entries [] vec row .root hvalid)
    dsimp only
    rw [hrows]
    dsimp only
    -- What is found is what the search of one of the visited rows finds.
    have hfrom : ∀ f, firstFound (rows.map fun v ↦
        if c.looks ∧ (probe v.1).isNull then .miss else (probe v.1).search v.2.1 v.2.2) = f → f ≠ .miss →
        ∃ i v r, vec.Below row (c.slot i) v r ∧
          (if c.looks ∧ (probe i).isNull then .miss else (probe i).search v r) = f := by
      rintro f rfl hf
      obtain ⟨⟨i, v, r⟩, hv, heq⟩ := List.mem_map.mp (firstFound_mem hf)
      exact ⟨i, v, r, (hmem i v r).mp hv, heq⟩
    refine ⟨fun h ↦ ?_, fun tid hholds h ↦ ?_, fun tid h ↦ ?_, fun hm h ↦ ?_⟩
    · obtain ⟨i, v, r, hbelow, heq⟩ := hfrom _ h Found.noConfusion
      exact (hchild i v r hbelow).sound heq
    · obtain ⟨i, v, r, hbelow, hholds⟩ := (holdsOpaque_container ho).mp hholds
      exact (hchild i v r hbelow).complete tid hholds
        (firstFound_eq_miss.mp h _ (List.mem_map.mpr ⟨(i, v, r), (hmem i v r).mpr hbelow, rfl⟩))
    · obtain ⟨i, v, r, hbelow, heq⟩ := hfrom _ h Found.noConfusion
      exact (holdsOpaque_container ho).mpr ⟨i, v, r, hbelow, (hchild i v r hbelow).named tid heq⟩
    · obtain ⟨i, v, r, hbelow, heq⟩ := hfrom _ h Found.noConfusion
      exact (hchild i v r hbelow).granted (fun path ↦ hm (c.slot i :: path)) heq

/-- The search of a probe finds an undecodable value if there is one, and names
one that is there; it reads no probe that is not there and no row out of range. -/
theorem search_tells (t : TypeTree) (m : Grants) (hlaid : Laid isOpaque t vec n row)
    (hv : t.hasVariant isOpaque = true) :
    Tells (HoldsOpaque isOpaque t vec row) m ((Probe.build isOpaque t m).search vec row) := by
  induction t generalizing m vec n row with
  | scalar tid =>
    have ho : isOpaque tid = true := hv
    rw [Probe.build, if_pos ho]
    exact tells_opaque (t := .scalar tid) hlaid.sized hlaid.lt ho
  | container c child ih =>
    by_cases ho : isOpaque c.id = true
    · rw [Probe.build, if_pos ho]
      exact tells_opaque (t := .container c child) hlaid.sized hlaid.lt ho
    have hnull : (Probe.build isOpaque (.container c child) m).isNull = _ := Probe.isNull_build _ m
    rw [hv] at hnull
    rw [Probe.build, if_neg ho] at hnull ⊢
    split at hnull
    · cases hnull
    rename_i harity
    rw [if_neg harity]
    split at hnull
    · rename_i hm
      rw [if_pos hm, if_pos hv]
      exact tells_standIn hlaid.sized hlaid.lt fun h ↦ hm (h []).2
    rename_i hm
    rw [if_neg hm]
    dsimp only at hnull ⊢
    split at hnull
    · cases hnull
    rename_i hall
    rw [if_neg hall]
    by_cases hprobe : m.probe [] = true
    · rw [if_pos hprobe]
      refine tells_node (Bool.eq_false_iff.mpr ho) hlaid fun i v r hbelow ↦ ?_
      obtain ⟨k, hchild⟩ := hlaid.below hbelow
      by_cases hi : (child i).hasVariant isOpaque = true
      · rw [Probe.isNull_build, hi, if_neg (by simp)]
        exact ih i _ hchild hi
      · have hi := Bool.eq_false_iff.mpr hi
        rw [Probe.isNull_build, hi]
        by_cases hlooks : c.looks = true
        · rw [if_pos ⟨hlooks, rfl⟩]
          exact tells_null _ _ hi
        · refine absurd (List.all_eq_true.mpr fun j _ ↦ ?_) hall
          obtain rfl := Container.eq_of_not_looks (Bool.eq_false_iff.mpr hlooks) i j
          rw [Probe.isNull_build, hi]
          rfl
    · rw [if_neg hprobe]
      exact tells_standIn hlaid.sized hlaid.lt fun h ↦ hprobe (h []).1

end Searches

section Rows

variable {isOpaque : TypeId → Bool} {types : List TypeTree} {vecs : List Vector} {n cur : ℕ}
  (hlaid : ∀ (c : ℕ) (t : TypeTree) (vec : Vector), types[c]? = some t → vecs[c]? = some vec →
    Laid isOpaque t vec n cur)

/-- A value of the row, at or below a column, that the driver cannot decode. -/
def Undecodable (isOpaque : TypeId → Bool) (types : List TypeTree) (vecs : List Vector) (cur : ℕ)
    (tid : TypeId) : Prop :=
  ∃ (c : ℕ) (t : TypeTree) (vec : Vector), types[c]? = some t ∧ vecs[c]? = some vec ∧ HoldsOpaque isOpaque t vec cur tid

theorem mem_variantCols {memory : ℕ → Grants} {c : ℕ} :
    c ∈ variantCols (cacheProbes isOpaque types memory) ↔
      ∃ t, types[c]? = some t ∧ t.hasVariant isOpaque = true := by
  simp only [variantCols, cacheProbes, List.mem_filter, List.mem_range, List.length_mapIdx,
    List.getElem?_mapIdx, Option.any_map]
  constructor
  · rintro ⟨hc, h⟩
    rw [List.getElem?_eq_getElem hc] at h
    exact ⟨_, List.getElem?_eq_getElem hc, by simpa [Probe.isNull_build] using h⟩
  · rintro ⟨t, ht, hv⟩
    refine ⟨(List.getElem?_eq_some_iff.mp ht).1, ?_⟩
    rw [ht]
    simp [Probe.isNull_build, hv]

include hlaid

/-- A row is rejected when one of its values, however deep, is of an undecodable
type, and the error names the type of such a value. Only a refusal of memory while
the probes were built rejects other rows, and then it names no type. -/
theorem rowHasVariant_undecodable (hlength : vecs.length = types.length) (memory : ℕ → Grants) :
    rowHasVariant (cacheProbes isOpaque types memory) vecs cur ≠ .fault ∧
    (∀ tid, Undecodable isOpaque types vecs cur tid →
      rowHasVariant (cacheProbes isOpaque types memory) vecs cur ≠ .miss) ∧
    (∀ tid, rowHasVariant (cacheProbes isOpaque types memory) vecs cur = .hit (some tid) →
      Undecodable isOpaque types vecs cur tid) ∧
    ((∀ c path, (memory c).probe path ∧ (memory c).children path) →
      rowHasVariant (cacheProbes isOpaque types memory) vecs cur ≠ .hit none) := by
  have hcolumn : ∀ (c : ℕ) (t : TypeTree) (vec : Vector), types[c]? = some t → vecs[c]? = some vec → t.hasVariant isOpaque = true →
      Tells (HoldsOpaque isOpaque t vec cur) (memory c) ((Probe.build isOpaque t (memory c)).search vec cur) :=
    fun c t vec ht hvec hv ↦ search_tells t (memory c) (hlaid c t vec ht hvec) hv
  have hprobe : ∀ (c : ℕ) (t : TypeTree), types[c]? = some t →
      (cacheProbes isOpaque types memory)[c]? = some (Probe.build isOpaque t (memory c)) := by
    intro c t ht
    rw [cacheProbes, List.getElem?_mapIdx, ht]
    rfl
  -- What is found is what the search of one of the columns finds.
  have hfrom : ∀ f, rowHasVariant (cacheProbes isOpaque types memory) vecs cur = f → f ≠ .miss →
      ∃ (c : ℕ) (t : TypeTree) (vec : Vector), types[c]? = some t ∧ vecs[c]? = some vec ∧ t.hasVariant isOpaque = true ∧
        (Probe.build isOpaque t (memory c)).search vec cur = f := by
    rintro f rfl hf
    obtain ⟨c, hc, heq⟩ := List.mem_map.mp (firstFound_mem hf)
    obtain ⟨t, ht, hv⟩ := mem_variantCols.mp hc
    have hvec : c < vecs.length := hlength ▸ (List.getElem?_eq_some_iff.mp ht).1
    rw [List.getElem?_eq_getElem hvec, hprobe c t ht] at heq
    exact ⟨c, t, vecs[c], ht, List.getElem?_eq_getElem hvec, hv, heq⟩
  refine ⟨fun h ↦ ?_, fun tid hholds h ↦ ?_, fun tid h ↦ ?_, fun hm h ↦ ?_⟩
  · obtain ⟨c, t, vec, ht, hvec, hv, heq⟩ := hfrom _ h Found.noConfusion
    exact (hcolumn c t vec ht hvec hv).sound heq
  · obtain ⟨c, t, vec, ht, hvec, hholds⟩ := hholds
    have hmiss := firstFound_eq_miss.mp h _ (List.mem_map.mpr
      ⟨c, mem_variantCols.mpr ⟨t, ht, hholds.hasVariant⟩, rfl⟩)
    rw [hvec, hprobe c t ht] at hmiss
    exact (hcolumn c t vec ht hvec hholds.hasVariant).complete tid hholds hmiss
  · obtain ⟨c, t, vec, ht, hvec, hv, heq⟩ := hfrom _ h Found.noConfusion
    exact ⟨c, t, vec, ht, hvec, (hcolumn c t vec ht hvec hv).named tid heq⟩
  · obtain ⟨c, t, vec, ht, hvec, hv, heq⟩ := hfrom _ h Found.noConfusion
    exact (hcolumn c t vec ht hvec hv).granted (hm c) heq

omit hlaid

/-- Two elements, the first of them NULL, of a type that is not in the switch. -/
def unknownItems : Vector := .leaf (.other 41) (some [false, true]) [.variant none, .variant none]

theorem laid_unknownItems {r : ℕ} (hr : r < 2) :
    Laid (typeOpaque true none) (.scalar (.other 41)) unknownItems 2 r := by
  have hend : ∀ path v r', unknownItems.Reached r path v r' → path = [] ∧ v = unknownItems := by
    intro path v r' h
    cases path with
    | nil => exact ⟨rfl, (Vector.reached_nil.mp h).1⟩
    | cons k path =>
      obtain ⟨_, _, hb, _⟩ := Vector.reached_cons.mp h
      cases hb
  refine ⟨⟨fun l hl ↦ (by cases hl; rfl), rfl⟩, hr, fun path v r' h _ ↦ ?_, fun path v r' c child h _ ht ↦ ?_⟩
  · rw [(hend path v r' h).2]
    trivial
  · rw [(hend path v r' h).1] at ht
    cases ht

def unknownList : Vector := .list none [⟨0, 2⟩] 2 unknownItems

def unknownListType : TypeTree := .container .list fun _ ↦ .scalar (.other 41)

theorem laid_unknownList : Laid (typeOpaque true none) unknownListType unknownList 1 0 := by
  have hbelow : ∀ k v r, unknownList.Below 0 k v r → k = 0 ∧ v = unknownItems ∧ r < 2 := by
    intro k v r h
    cases h with
    | list _ he hi =>
      cases he
      exact ⟨rfl, rfl, (Nat.zero_add _).symm ▸ hi⟩
  refine ⟨⟨fun l hl ↦ (by cases hl), rfl, (laid_unknownItems Nat.two_pos).sized⟩, Nat.one_pos,
    fun path v r h hv ↦ ?_, fun path v r c child h hv ht ho ↦ ?_⟩
  · cases path with
    | nil =>
      obtain ⟨rfl, rfl⟩ := Vector.reached_nil.mp h
      intro e he
      cases he
      decide
    | cons k path =>
      obtain ⟨v', r', hb, h⟩ := Vector.reached_cons.mp h
      obtain ⟨rfl, rfl, hr⟩ := hbelow k v' r' hb
      exact (laid_unknownItems hr).entries path v r h hv
  · cases path with
    | nil =>
      obtain ⟨rfl, rfl⟩ := Vector.reached_nil.mp h
      cases ht
      trivial
    | cons k path =>
      obtain ⟨v', r', hb, h⟩ := Vector.reached_cons.mp h
      obtain ⟨rfl, rfl, hr⟩ := hbelow k v' r' hb
      exact (laid_unknownItems hr).shapes path v r c child h hv ht ho

theorem rowHasVariant_unknownList :
    rowHasVariant (cacheProbes (typeOpaque true none) [unknownListType] fun _ ↦ ⟨fun _ ↦ true, fun _ ↦ true⟩)
      [unknownList] 0 = .hit (some (.other 41)) ∧
    rowHasVariant (cacheProbes (typeOpaque true none) [unknownListType] fun _ ↦ ⟨fun _ ↦ false, fun _ ↦ true⟩)
      [unknownList] 0 = .hit none ∧
    Undecodable (typeOpaque true none) [unknownListType] [unknownList] 0 (.other 41) := by
  have hlaid : ∀ (c : ℕ) (t : TypeTree) (vec : Vector), [unknownListType][c]? = some t →
      [unknownList][c]? = some vec → Laid (typeOpaque true none) t vec 1 0 := by
    intro c t vec ht hvec
    cases c with
    | zero =>
      cases ht
      cases hvec
      exact laid_unknownList
    | succ c => cases ht
  refine ⟨by decide, by decide, ?_⟩
  exact (rowHasVariant_undecodable hlaid rfl fun _ ↦ ⟨fun _ ↦ true, fun _ ↦ true⟩).2.2.1 _ (by decide)

end Rows

end PdoDuckdb.Structures
