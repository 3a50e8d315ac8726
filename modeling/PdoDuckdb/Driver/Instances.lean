import PdoDuckdb.Bytes
import PdoDuckdb.Library.Runs
import Mathlib.Data.List.Nodup
import Mathlib.Data.List.Pairwise
import Mathlib.Logic.Function.Basic

namespace PdoDuckdb.Driver

open Library

abbrev Path := List Byte

/-- Address of a `pdo_duckdb_db_handle`. -/
abbrev Handle := ℕ

/-- Address of a `pdo_duckdb_instance`. -/
abbrev Address := ℕ

structure FileIdentity where
  device : UInt64
  file : UInt64
deriving DecidableEq, Repr

/-- `has_identity`, `device` and `file` are one optional value here. -/
structure Instance where
  address : Address
  path : Option Path
  identity : Option FileIdentity
  handles : List Handle
deriving DecidableEq, Repr

/-- The fields of a handle that opening and closing touch: its instance, and
whether it holds a native database and a native connection. -/
structure DbHandle where
  inst : Option Address
  db : Bool
  conn : Bool
deriving DecidableEq, Repr

def DbHandle.fresh : DbHandle := ⟨none, false, false⟩

structure State where
  instances : List Instance
  handles : Handle → DbHandle

def State.initial : State := ⟨[], fun _ ↦ .fresh⟩

def State.setHandle (s : State) (h : Handle) (d : DbHandle) : State :=
  { s with handles := Function.update s.handles h d }

/-- What the outside answers during one open, step by step: the bridge, `stat`
before the open, the allocator, DuckDB, and `stat` after it. -/
structure Opening where
  install : Except (Option String) Unit
  before : Option FileIdentity
  allocated : Option Address
  create : Except String Unit
  refresh : Except (Option String) Unit
  connect : Bool
  after : Option FileIdentity

def lowercase (c : Byte) : Byte := if 0x41 ≤ c ∧ c ≤ 0x5a then c + 0x20 else c

/-- `pdo_duckdb_same_path`: `strcasecmp` on Windows and macOS, else `strcmp`. -/
def samePath (ignoreCase : Bool) (left right : Path) : Prop :=
  if ignoreCase then left.map lowercase = right.map lowercase else left = right

instance (ignoreCase : Bool) (left right : Path) : Decidable (samePath ignoreCase left right) := by
  unfold samePath
  infer_instance

/-- The loop over the instances: the one of the path, `none`, or a refusal. -/
def findInstance (ignoreCase : Bool) (path : Path) (identified : Option FileIdentity) :
    List Instance → Except String (Option Instance)
  | [] => .ok none
  | i :: rest =>
    match i.path with
    | none => findInstance ignoreCase path identified rest
    | some p =>
      if samePath ignoreCase path p then
        if i.identity.isSome ∧ identified ≠ i.identity then
          .error (if path ≠ p then
            "DuckDB cannot safely open distinct database paths that differ only by case simultaneously"
          else "The database path changed while another connection still uses it")
        else .ok (some i)
      else if identified.isSome ∧ i.identity.isSome ∧ i.identity = identified then
        .error "A hard-link alias of this database file is already open; use the original database path"
      else findInstance ignoreCase path identified rest

def lookInstance (ignoreCase : Bool) (path : Option Path) (identified : Option FileIdentity)
    (instances : List Instance) : Except String (Option Instance) :=
  match path with
  | none => .ok none
  | some p => findInstance ignoreCase p identified instances

/-- The instance to use and whether it is created, or `none` when the
allocation fails. -/
def chooseInstance (path : Option Path) (found : Option Instance) (allocated : Option Address) :
    Option (Instance × Bool) :=
  match found with
  | some i => some (i, false)
  | none => allocated.map fun a ↦ (⟨a, path, none, []⟩, true)

/-- Open, refresh and connect; a failure closes what was opened before it. -/
def connectHandle (o : Opening) (d : DbHandle) : DbHandle × Except String Unit :=
  match o.create with
  | .error message => (d, .error message)
  | .ok () =>
    match o.refresh with
    | .error data =>
      ({ d with db := false }, .error (data.getD "Unable to verify the database filesystem"))
    | .ok () =>
      if o.connect then ({ d with db := true, conn := true }, .ok ())
      else ({ d with db := false }, .error "Unable to connect to DuckDB database")

/-- The identity that a created instance gets, checked against the one before
the open. -/
def verifyIdentity (created : Bool) (path : Option Path) (identified after : Option FileIdentity)
    (i : Instance) : Except String Instance :=
  if created ∧ path.isSome then
    if after = none ∨ identified.isSome ∧ after ≠ identified then
      .error "Unable to verify the database file identity safely"
    else .ok { i with identity := after }
  else .ok i

def addHandle (a : Address) (h : Handle) (instances : List Instance) : List Instance :=
  instances.map fun i ↦ if i.address = a then { i with handles := h :: i.handles } else i

def attach (created : Bool) (i : Instance) (h : Handle) (instances : List Instance) :
    List Instance :=
  if created then { i with handles := h :: i.handles } :: instances
  else addHandle i.address h instances

def openInstance (ignoreCase : Bool) (s : State) (h : Handle) (path : Option Path) (o : Opening) :
    State × Except String Unit :=
  match o.install with
  | .error data => (s, .error (data.getD "Unable to install the database filesystem"))
  | .ok () =>
    let identified := path.bind fun _ ↦ o.before
    match lookInstance ignoreCase path identified s.instances with
    | .error message => (s, .error message)
    | .ok found =>
      match chooseInstance path found o.allocated with
      | none => (s, .error "Unable to allocate a shared DuckDB instance")
      | some (i, created) =>
        let (d, connected) := connectHandle o { s.handles h with inst := some i.address }
        match connected with
        | .error message => (s.setHandle h { d with inst := none }, .error message)
        | .ok () =>
          match verifyIdentity created path identified o.after i with
          | .error message => (s.setHandle h ⟨none, false, false⟩, .error message)
          | .ok i =>
            ({ s.setHandle h d with instances := attach created i h s.instances }, .ok ())

/-- `duckdb_handle_closer`, on the handle's own list and the instance list. -/
def closeHandle (s : State) (h : Handle) : State :=
  match (s.handles h).inst with
  | none => s.setHandle h .fresh
  | some a =>
    let left := s.instances.map fun i ↦
      if i.address = a then { i with handles := i.handles.erase h } else i
    { s.setHandle h .fresh with
      instances := left.eraseP fun i ↦ i.address = a && i.handles.isEmpty }

inductive Event
  | opens (h : Handle) (path : Option Path) (o : Opening)
  | closes (h : Handle)

/-- A connection is opened on a handle that is not open, and memory is
allocated where no live instance is. -/
def step (ignoreCase : Bool) (s : State) : Event → State
  | .opens h path o =>
    if s.handles h = .fresh ∧ ∀ i ∈ s.instances, o.allocated ≠ some i.address then
      (openInstance ignoreCase s h path o).1
    else s
  | .closes h => closeHandle s h

/-- A file that the open has created, since none was seen before it, is not the
file of a live instance. -/
def NewFile (s : State) : Event → Prop
  | .opens _ path o =>
    path.isSome → o.before = none → ∀ i ∈ s.instances, i.identity.isSome → i.identity ≠ o.after
  | .closes _ => True

variable {ignoreCase : Bool} {s : State} {h k : Handle} {path : Option Path} {p q : Path}
  {o : Opening} {identified : Option FileIdentity} {instances : List Instance} {i j : Instance}
  {created : Bool} {a : Address} {message : String}

theorem samePath_symm (h : samePath ignoreCase p q) : samePath ignoreCase q p := by
  unfold samePath at *
  split_ifs at * <;> exact h.symm

theorem samePath_trans {r : Path} (h : samePath ignoreCase p q) (h' : samePath ignoreCase q r) :
    samePath ignoreCase p r := by
  unfold samePath at *
  split_ifs at * <;> exact h.trans h'

def Apart (ignoreCase : Bool) (i j : Instance) : Prop :=
  ∀ p ∈ i.path, ∀ q ∈ j.path, ¬ samePath ignoreCase p q ∧ i.identity ≠ j.identity

theorem Apart.symm (h : Apart ignoreCase i j) : Apart ignoreCase j i :=
  fun p hp q hq ↦ ⟨fun hs ↦ (h q hq p hp).1 (samePath_symm hs), fun he ↦ (h q hq p hp).2 he.symm⟩

theorem findInstance_some
    (h : findInstance ignoreCase p identified instances = .ok (some i)) :
    i ∈ instances ∧ (∃ q ∈ i.path, samePath ignoreCase p q) ∧
      (i.identity.isSome → identified = i.identity) := by
  induction instances with
  | nil => cases h
  | cons j rest ih =>
    unfold findInstance at h
    split at h
    case h_1 =>
      obtain ⟨hmem, hrest⟩ := ih h
      exact ⟨List.mem_cons_of_mem j hmem, hrest⟩
    case h_2 q hq =>
      split_ifs at h with hsame hid
      · cases h
        refine ⟨List.mem_cons_self, ⟨q, hq, hsame⟩, fun hsome ↦ ?_⟩
        exact by_contra fun hne ↦ hid ⟨hsome, hne⟩
      · obtain ⟨hmem, hrest⟩ := ih h
        exact ⟨List.mem_cons_of_mem j hmem, hrest⟩

theorem findInstance_none (h : findInstance ignoreCase p identified instances = .ok none) :
    ∀ i ∈ instances, ∀ q ∈ i.path, ¬ samePath ignoreCase p q ∧
      (i.identity.isSome → i.identity ≠ identified) := by
  induction instances with
  | nil => simp
  | cons j rest ih =>
    rw [List.forall_mem_cons]
    unfold findInstance at h
    split at h
    case h_1 hnone =>
      refine ⟨fun q hq ↦ ?_, ih h⟩
      rw [hnone] at hq
      cases hq
    case h_2 q hq =>
      by_cases hsame : samePath ignoreCase p q
      · rw [if_pos hsame] at h
        split at h <;> cases h
      · rw [if_neg hsame] at h
        split at h
        case isTrue => cases h
        case isFalse halias =>
          refine ⟨fun q' hq' ↦ ?_, ih h⟩
          obtain rfl : q = q' := Option.some.inj (hq.symm.trans hq')
          refine ⟨hsame, fun hsome heq ↦ halias ⟨?_, hsome, heq⟩⟩
          rwa [← heq]

inductive Chosen (ignoreCase : Bool) (s : State) (o : Opening) :
    Option Path → Bool → Instance → Prop
  | joined {p q : Path} {i : Instance} : i ∈ s.instances → i.path = some q →
      samePath ignoreCase p q → (i.identity.isSome → o.before = i.identity) →
      Chosen ignoreCase s o (some p) false i
  | memory {a : Address} : o.allocated = some a →
      Chosen ignoreCase s o none true ⟨a, none, none, []⟩
  | file {p : Path} {a : Address} {file : FileIdentity} : o.allocated = some a →
      (∀ i ∈ s.instances, ∀ q ∈ i.path, ¬ samePath ignoreCase p q ∧
        (i.identity.isSome → i.identity ≠ o.before)) →
      o.after = some file → (o.before.isSome → o.before = some file) →
      Chosen ignoreCase s o (some p) true ⟨a, some p, some file, []⟩

theorem connectHandle_cases (o : Opening) (a : Address) :
    (∃ message, connectHandle o ⟨some a, false, false⟩ =
      (⟨some a, false, false⟩, .error message)) ∨
    connectHandle o ⟨some a, false, false⟩ = (⟨some a, true, true⟩, .ok ()) := by
  unfold connectHandle
  split
  · exact .inl ⟨_, rfl⟩
  · split
    · exact .inl ⟨_, rfl⟩
    · split_ifs
      · exact .inr rfl
      · exact .inl ⟨_, rfl⟩

theorem chosen_of_steps {found : Option Instance} {i' : Instance}
    (hlook : lookInstance ignoreCase path (path.bind fun _ ↦ o.before) s.instances = .ok found)
    (hchoose : chooseInstance path found o.allocated = some (i, created))
    (hverify : verifyIdentity created path (path.bind fun _ ↦ o.before) o.after i = .ok i') :
    Chosen ignoreCase s o path created i' ∧ i'.address = i.address := by
  cases path with
  | none =>
    obtain rfl := Except.ok.inj hlook
    obtain ⟨a, halloc, heq⟩ := Option.map_eq_some_iff.mp hchoose
    cases heq
    obtain rfl := Except.ok.inj hverify
    exact ⟨.memory halloc, rfl⟩
  | some p =>
    cases found with
    | some j =>
      cases hchoose
      obtain rfl := Except.ok.inj hverify
      obtain ⟨hmem, ⟨q, hq, hsame⟩, hid⟩ := findInstance_some hlook
      exact ⟨.joined hmem hq hsame hid, rfl⟩
    | none =>
      obtain ⟨a, halloc, heq⟩ := Option.map_eq_some_iff.mp hchoose
      cases heq
      simp only [verifyIdentity, Option.isSome_some, and_self, if_true, Option.bind_some] at hverify
      split_ifs at hverify with hbad
      obtain rfl := Except.ok.inj hverify
      rw [not_or, not_and, not_not] at hbad
      obtain ⟨file, hfile⟩ := Option.ne_none_iff_exists'.mp hbad.1
      refine ⟨?_, rfl⟩
      rw [hfile] at hbad ⊢
      exact .file halloc (findInstance_none hlook) hfile fun hsome ↦ (hbad.2 hsome).symm

/-- An open fails and leaves everything as it was, or succeeds on one chosen
instance. -/
theorem openInstance_cases (ignoreCase : Bool) (path : Option Path) (o : Opening)
    (hfresh : s.handles h = .fresh) :
    (∃ message, openInstance ignoreCase s h path o = (s, .error message)) ∨
    ∃ created i, Chosen ignoreCase s o path created i ∧
      openInstance ignoreCase s h path o =
        ({ s.setHandle h ⟨some i.address, true, true⟩ with
          instances := attach created i h s.instances }, .ok ()) := by
  have hback : s.setHandle h ⟨none, false, false⟩ = s := by
    unfold State.setHandle
    rw [show (⟨none, false, false⟩ : DbHandle) = s.handles h from hfresh.symm,
      Function.update_eq_self]
  rcases hinstall : o.install with data | _
  · left
    simp only [openInstance, hinstall]
    exact ⟨_, rfl⟩
  rcases hlook : lookInstance ignoreCase path (path.bind fun _ ↦ o.before) s.instances with
    message | found
  · exact .inl ⟨message, by simp only [openInstance, hinstall, hlook]⟩
  rcases hchoose : chooseInstance path found o.allocated with _ | ⟨i, created⟩
  · left
    simp only [openInstance, hinstall, hlook, hchoose]
    exact ⟨_, rfl⟩
  rcases connectHandle_cases o i.address with ⟨message, hconnect⟩ | hconnect
  · refine .inl ⟨message, ?_⟩
    simp only [openInstance, hinstall, hlook, hchoose, hfresh, DbHandle.fresh, hconnect, hback]
  rcases hverify : verifyIdentity created path (path.bind fun _ ↦ o.before) o.after i with
    message | i'
  · refine .inl ⟨message, ?_⟩
    simp only [openInstance, hinstall, hlook, hchoose, hfresh, DbHandle.fresh, hconnect, hback,
      hverify]
  obtain ⟨hchosen, haddress⟩ := chosen_of_steps hlook hchoose hverify
  refine .inr ⟨created, i', hchosen, ?_⟩
  simp only [openInstance, hinstall, hlook, hchoose, hfresh, DbHandle.fresh, hconnect, hverify,
    haddress]

theorem attach_listed (hchosen : Chosen ignoreCase s o path created i) :
    ∃ j ∈ attach created i h s.instances, h ∈ j.handles := by
  unfold attach
  cases hchosen with
  | joined hmem =>
    refine ⟨_, List.mem_map_of_mem hmem, ?_⟩
    rw [if_pos rfl]
    exact List.mem_cons_self
  | memory | file => exact ⟨_, List.mem_cons_self, List.mem_cons_self⟩

/-- An open that succeeds has its handle connected, and on the list of an instance. -/
theorem opened_listed (hfresh : s.handles h = .fresh) (hok : (openInstance ignoreCase s h path o).2 = .ok ()) :
    ((openInstance ignoreCase s h path o).1.handles h).conn ∧
      ∃ i ∈ (openInstance ignoreCase s h path o).1.instances, h ∈ i.handles := by
  rcases openInstance_cases ignoreCase path o hfresh with ⟨message, heq⟩ | ⟨created, i, hchosen, heq⟩
  · rw [heq] at hok
    cases hok
  · rw [heq]
    refine ⟨?_, attach_listed hchosen⟩
    change (Function.update s.handles h ⟨some i.address, true, true⟩ h).conn
    rw [Function.update_self]

/-- The lists and the handles' own pointers agree, and the file-backed instances
are apart. -/
structure Linked (ignoreCase : Bool) (s : State) : Prop where
  addresses : (s.instances.map Instance.address).Nodup
  apart : s.instances.Pairwise (Apart ignoreCase)
  identified : ∀ i ∈ s.instances, i.path.isSome → i.identity.isSome
  nodup : ∀ i ∈ s.instances, i.handles.Nodup
  listed : ∀ i ∈ s.instances, ∀ h, h ∈ i.handles ↔ (s.handles h).inst = some i.address
  joined : ∀ h a, (s.handles h).inst = some a → ∃ i ∈ s.instances, i.address = a
  connected : ∀ h, (s.handles h).conn = (s.handles h).inst.isSome ∧
    (s.handles h).db = (s.handles h).inst.isSome

structure Invariant (ignoreCase : Bool) (s : State) : Prop extends Linked ignoreCase s where
  occupied : ∀ i ∈ s.instances, i.handles ≠ []

theorem Invariant.initial : Invariant ignoreCase State.initial := by
  refine ⟨⟨List.nodup_nil, List.Pairwise.nil, ?_, ?_, ?_, ?_, ?_⟩, ?_⟩
  all_goals simp [State.initial, DbHandle.fresh]

namespace Linked

theorem eq_of_address (hs : Linked ignoreCase s) (hi : i ∈ s.instances) (hj : j ∈ s.instances)
    (h : i.address = j.address) : i = j :=
  List.inj_on_of_nodup_map hs.addresses hi hj h

/-- An update of the handle lists, together with one handle's pointer. -/
theorem update (hs : Linked ignoreCase s) (f : Instance → Instance)
    (hf : ∀ i, (f i).address = i.address ∧ (f i).path = i.path ∧ (f i).identity = i.identity)
    (hnodup : ∀ i ∈ s.instances, (f i).handles.Nodup) (d : DbHandle)
    (hlisted : ∀ i ∈ s.instances, ∀ k, k ∈ (f i).handles ↔
      ((s.setHandle h d).handles k).inst = some i.address)
    (hd : ∀ a, d.inst = some a → ∃ i ∈ s.instances, i.address = a)
    (hconn : d.conn = d.inst.isSome ∧ d.db = d.inst.isSome) :
    Linked ignoreCase { s.setHandle h d with instances := s.instances.map f } where
  addresses := by
    rw [List.map_map, show Instance.address ∘ f = Instance.address from funext fun i ↦ (hf i).1]
    exact hs.addresses
  apart := by
    rw [List.pairwise_map]
    refine hs.apart.imp fun {i j} hij p hp q hq ↦ ?_
    rw [(hf i).2.1] at hp
    rw [(hf j).2.1] at hq
    rw [(hf i).2.2, (hf j).2.2]
    exact hij p hp q hq
  identified := by
    intro i hi
    obtain ⟨j, hj, rfl⟩ := List.mem_map.mp hi
    rw [(hf j).2.1, (hf j).2.2]
    exact hs.identified j hj
  nodup := by
    intro i hi
    obtain ⟨j, hj, rfl⟩ := List.mem_map.mp hi
    exact hnodup j hj
  listed := by
    intro i hi k
    obtain ⟨j, hj, rfl⟩ := List.mem_map.mp hi
    rw [(hf j).1]
    exact hlisted j hj k
  joined := by
    intro k a hk
    have hex : ∃ i ∈ s.instances, i.address = a := by
      by_cases hkh : k = h
      · subst hkh
        exact hd a (by simpa [State.setHandle] using hk)
      · exact hs.joined k a (by simpa [State.setHandle, Function.update_of_ne hkh] using hk)
    obtain ⟨i, hi, rfl⟩ := hex
    exact ⟨f i, List.mem_map_of_mem hi, (hf i).1⟩
  connected := by
    intro k
    by_cases hkh : k = h
    · subst hkh
      simpa [State.setHandle] using hconn
    · simpa [State.setHandle, Function.update_of_ne hkh] using hs.connected k

/-- Freeing an instance without handles. -/
theorem free (hs : Linked ignoreCase s) (p : Instance → Bool) (hp : ∀ i, p i → i.handles = []) :
    Linked ignoreCase { s with instances := s.instances.eraseP p } where
  addresses := hs.addresses.sublist (List.eraseP_sublist.map Instance.address)
  apart := hs.apart.sublist List.eraseP_sublist
  identified := fun i hi ↦ hs.identified i (List.mem_of_mem_eraseP hi)
  nodup := fun i hi ↦ hs.nodup i (List.mem_of_mem_eraseP hi)
  listed := fun i hi ↦ hs.listed i (List.mem_of_mem_eraseP hi)
  joined := by
    intro k a hk
    obtain ⟨i, hi, rfl⟩ := hs.joined k a hk
    have hmem : k ∈ i.handles := (hs.listed i hi k).mpr hk
    have hnot : ¬ p i := fun hpi ↦ List.ne_nil_of_mem hmem (hp i hpi)
    exact ⟨i, (List.mem_eraseP_of_neg hnot).mpr hi, rfl⟩
  connected := hs.connected

end Linked

namespace Invariant

theorem join (hs : Invariant ignoreCase s) (hi : i ∈ s.instances) (hfresh : s.handles h = .fresh) :
    Invariant ignoreCase { s.setHandle h ⟨some i.address, true, true⟩ with
      instances := addHandle i.address h s.instances } := by
  have hnot : ∀ j ∈ s.instances, h ∉ j.handles := by
    intro j hj hmem
    have hinst := (hs.listed j hj h).mp hmem
    rw [hfresh] at hinst
    cases hinst
  have hlinked := hs.toLinked.update (h := h)
    (fun j ↦ if j.address = i.address then { j with handles := h :: j.handles } else j)
    (fun j ↦ by split <;> exact ⟨rfl, rfl, rfl⟩)
    (fun j hj ↦ by
      split
      · exact List.nodup_cons.mpr ⟨hnot j hj, hs.nodup j hj⟩
      · exact hs.nodup j hj)
    ⟨some i.address, true, true⟩
    (fun j hj k ↦ by
      have hlisted := hs.listed j hj k
      by_cases hkh : k = h
      · subst hkh
        by_cases ha : j.address = i.address
        · simp [ha, State.setHandle]
        · simp [ha, State.setHandle, hnot j hj, Ne.symm ha]
      · by_cases ha : j.address = i.address
        · simp [ha, State.setHandle, hkh, hlisted]
        · simp [ha, State.setHandle, hkh, hlisted])
    (fun a ha ↦ ⟨i, hi, Option.some.inj ha⟩) ⟨rfl, rfl⟩
  refine ⟨hlinked, fun j hj ↦ ?_⟩
  obtain ⟨j', hj', rfl⟩ := List.mem_map.mp hj
  split
  · exact List.cons_ne_nil _ _
  · exact hs.occupied j' hj'

theorem create (hs : Invariant ignoreCase s) (hfresh : s.handles h = .fresh) {path : Option Path}
    {identity : Option FileIdentity} (ha : ∀ i ∈ s.instances, i.address ≠ a)
    (hid : path.isSome → identity.isSome)
    (hapart : ∀ i ∈ s.instances, Apart ignoreCase ⟨a, path, identity, [h]⟩ i) :
    Invariant ignoreCase { s.setHandle h ⟨some a, true, true⟩ with
      instances := ⟨a, path, identity, [h]⟩ :: s.instances } := by
  have hother (k : Handle) (hkh : k ≠ h) :
      (s.setHandle h ⟨some a, true, true⟩).handles k = s.handles k := Function.update_of_ne hkh ..
  have hself : (s.setHandle h ⟨some a, true, true⟩).handles h = ⟨some a, true, true⟩ :=
    Function.update_self ..
  have hunset (i : Instance) (hi : i ∈ s.instances) : h ∉ i.handles := by
    intro hmem
    have hinst := (hs.listed i hi h).mp hmem
    rw [hfresh] at hinst
    cases hinst
  refine ⟨⟨?_, ?_, ?_, ?_, ?_, ?_, ?_⟩, ?_⟩
  · refine List.nodup_cons.mpr ⟨fun hmem ↦ ?_, hs.addresses⟩
    obtain ⟨i, hi, heq⟩ := List.mem_map.mp hmem
    exact ha i hi heq
  · exact List.Pairwise.cons hapart hs.apart
  · exact List.forall_mem_cons.mpr ⟨hid, hs.identified⟩
  · exact List.forall_mem_cons.mpr ⟨List.nodup_singleton h, hs.nodup⟩
  · refine List.forall_mem_cons.mpr ⟨fun k ↦ ?_, fun i hi k ↦ ?_⟩
    · by_cases hkh : k = h
      · simp [hkh, hself]
      · simp only [List.mem_singleton, hkh, hother k hkh, false_iff]
        intro hinst
        obtain ⟨i, hi, heq⟩ := hs.joined k a hinst
        exact ha i hi heq
    · by_cases hkh : k = h
      · subst hkh
        simp [hunset i hi, hself, (ha i hi).symm]
      · rw [hother k hkh]
        exact hs.listed i hi k
  · intro k b hk
    by_cases hkh : k = h
    · subst hkh
      rw [hself] at hk
      exact ⟨_, List.mem_cons_self, Option.some.inj hk⟩
    · rw [hother k hkh] at hk
      obtain ⟨i, hi, heq⟩ := hs.joined k b hk
      exact ⟨i, List.mem_cons_of_mem _ hi, heq⟩
  · intro k
    by_cases hkh : k = h
    · subst hkh
      simp [hself]
    · rw [hother k hkh]
      exact hs.connected k
  · exact List.forall_mem_cons.mpr ⟨List.cons_ne_nil _ _, hs.occupied⟩

theorem opened (hs : Invariant ignoreCase s) (hfresh : s.handles h = .fresh)
    (ha : ∀ i ∈ s.instances, o.allocated ≠ some i.address)
    (hnew : NewFile s (.opens h path o)) : Invariant ignoreCase (openInstance ignoreCase s h path o).1 := by
  rcases openInstance_cases ignoreCase path o hfresh with
    ⟨message, heq⟩ | ⟨created, i, hchosen, heq⟩
  · rw [heq]
    exact hs
  · rw [heq]
    cases hchosen with
    | joined hmem _ _ _ => exact hs.join hmem hfresh
    | memory halloc =>
      refine hs.create hfresh (fun i hi heq ↦ ha i hi (by rw [halloc, heq])) (by simp) ?_
      intro i _ p hp
      cases hp
    | @file p a file halloc hapart hafter hbefore =>
      refine hs.create hfresh (fun i hi heq ↦ ha i hi (by rw [halloc, heq])) (by simp) ?_
      intro i hi p' hp' q hq
      obtain rfl := Option.some.inj hp'
      obtain ⟨hpath, hid⟩ := hapart i hi q hq
      have hsome : i.identity.isSome := hs.identified i hi (by rw [hq]; rfl)
      refine ⟨hpath, fun heq ↦ ?_⟩
      rcases hb : o.before with _ | before
      · exact hnew rfl hb i hi hsome (by rw [hafter, ← heq])
      · exact hid hsome (by rw [← heq, hbefore (by rw [hb]; rfl)])

theorem closed (hs : Invariant ignoreCase s) (h : Handle) :
    Invariant ignoreCase (closeHandle s h) := by
  unfold closeHandle
  split
  case h_1 hinst =>
    have hlinked := hs.toLinked.update (h := h) id (fun _ ↦ ⟨rfl, rfl, rfl⟩) hs.nodup .fresh
      (fun i hi k ↦ by
        have hlisted := hs.listed i hi k
        by_cases hkh : k = h
        · subst hkh
          simpa [State.setHandle, DbHandle.fresh, hinst] using hlisted
        · simpa [State.setHandle, hkh] using hlisted)
      (by simp [DbHandle.fresh]) ⟨rfl, rfl⟩
    rw [List.map_id] at hlinked
    exact ⟨hlinked, hs.occupied⟩
  case h_2 a hinst =>
    have hlinked := hs.toLinked.update (h := h)
      (fun i ↦ if i.address = a then { i with handles := i.handles.erase h } else i)
      (fun i ↦ by split <;> exact ⟨rfl, rfl, rfl⟩)
      (fun i hi ↦ by
        split
        · exact (hs.nodup i hi).erase h
        · exact hs.nodup i hi)
      .fresh
      (fun i hi k ↦ by
        have hlisted := hs.listed i hi k
        by_cases hkh : k = h
        · subst hkh
          rw [hinst, Option.some.injEq] at hlisted
          by_cases ha : i.address = a
          · simp [ha, State.setHandle, DbHandle.fresh, (hs.nodup i hi).mem_erase_iff]
          · simp [ha, State.setHandle, DbHandle.fresh, hlisted, Ne.symm ha]
        · by_cases ha : i.address = a
          · simp [ha, State.setHandle, hkh, (hs.nodup i hi).mem_erase_iff, hlisted]
          · simp [ha, State.setHandle, hkh, hlisted])
      (by simp [DbHandle.fresh]) ⟨rfl, rfl⟩
    refine ⟨hlinked.free _ fun i hi ↦ ?_, fun j hj hempty ↦ ?_⟩
    · simpa using (Bool.and_eq_true_iff.mp hi).2
    · -- an instance left without handles is the one that is freed
      have hmem := List.mem_of_mem_eraseP hj
      obtain ⟨i, hi, rfl⟩ := List.mem_map.mp hmem
      have ha : i.address = a := by
        by_contra ha
        rw [if_neg ha] at hempty
        exact hs.occupied i hi hempty
      obtain ⟨b, l₁, l₂, -, hb, hsplit, hrest⟩ := List.exists_of_eraseP hmem
        (p := fun i ↦ decide (i.address = a) && i.handles.isEmpty)
        (by rw [hempty]; simp [ha])
      have hb : b.address = a := of_decide_eq_true (Bool.and_eq_true_iff.mp hb).1
      have haddresses := hlinked.addresses
      dsimp only at haddresses hj
      rw [hrest] at hj
      rw [hsplit, List.map_append, List.map_cons, List.nodup_middle, List.nodup_cons,
        ← List.map_append] at haddresses
      refine haddresses.1 (List.mem_map.mpr ⟨_, hj, ?_⟩)
      rw [hb, if_pos ha]
      exact ha

theorem step (hs : Invariant ignoreCase s) {e : Event} (hnew : NewFile s e) :
    Invariant ignoreCase (Driver.step ignoreCase s e) := by
  cases e with
  | opens h path o =>
    simp only [Driver.step]
    split
    case isTrue hguard => exact hs.opened hguard.1 hguard.2 hnew
    case isFalse => exact hs
  | closes h => exact hs.closed h

theorem run {es : List Event} (hrun : Runs.Guarded (Driver.step ignoreCase) NewFile .initial es) :
    Invariant ignoreCase (Runs.run (Driver.step ignoreCase) .initial es) :=
  hrun.invariant (fun _ _ hs hnew ↦ hs.step hnew) Invariant.initial

/-- An open of a path or a file that a live instance has joins that instance,
when it succeeds. -/
theorem opened_joins (hs : Invariant ignoreCase s) (hfresh : s.handles h = .fresh)
    (hi : i ∈ s.instances) (hq : i.path = some q)
    (hnames : samePath ignoreCase p q ∨ o.before.isSome ∧ o.before = i.identity)
    (hok : (openInstance ignoreCase s h (some p) o).2 = .ok ()) :
    (openInstance ignoreCase s h (some p) o).1 =
      { s.setHandle h ⟨some i.address, true, true⟩ with
        instances := addHandle i.address h s.instances } := by
  have hid : i.identity.isSome := hs.identified i hi (by rw [hq]; rfl)
  rcases openInstance_cases ignoreCase (some p) o hfresh with
    ⟨message, heq⟩ | ⟨created, j, hchosen, heq⟩
  · rw [heq] at hok
    cases hok
  · rw [heq]
    cases hchosen with
    | @joined p q' j hj hq' hsame hsees =>
      suffices hij : i = j by
        subst hij
        rfl
      by_contra hne
      have hsymm : Std.Symm (Apart ignoreCase) := ⟨fun _ _ h ↦ h.symm⟩
      have hapart : Apart ignoreCase i j := hs.apart.forall hi hj hne
      obtain ⟨hpaths, hids⟩ := hapart q hq q' hq'
      rcases hnames with hnames | ⟨-, hnames⟩
      · exact hpaths (samePath_trans (samePath_symm hnames) hsame)
      · have hj' : j.identity.isSome := hs.identified j hj (by rw [hq']; rfl)
        exact hids (by rw [← hnames, hsees hj'])
    | @file p a file halloc hapart hafter hbefore =>
      obtain ⟨hpath, hne⟩ := hapart i hi q hq
      rcases hnames with hnames | ⟨-, hnames⟩
      · exact absurd hnames hpath
      · exact absurd hnames.symm (hne hid)

end Invariant

/-- The instance list over every run of opens and closes. -/
theorem instances_run (ignoreCase : Bool) (es : List Event)
    (hrun : Runs.Guarded (step ignoreCase) NewFile .initial es) :
    let s := Runs.run (step ignoreCase) .initial es
    s.instances.Pairwise (Apart ignoreCase) ∧
    (∀ i ∈ s.instances, i.path.isSome → i.identity.isSome) ∧
    (∀ h, (s.handles h).conn → ∃! i, i ∈ s.instances ∧ h ∈ i.handles) ∧
    (∀ i ∈ s.instances, i.handles ≠ [] ∧ i.handles.Nodup ∧ ∀ h ∈ i.handles, (s.handles h).conn) ∧
    (∀ h path o message, s.handles h = .fresh →
      (openInstance ignoreCase s h path o).2 = .error message →
      (openInstance ignoreCase s h path o).1 = s) ∧
    (∀ h p o, ∀ i ∈ s.instances, ∀ q ∈ i.path, s.handles h = .fresh →
      samePath ignoreCase p q ∨ o.before.isSome ∧ o.before = i.identity →
      (openInstance ignoreCase s h (some p) o).2 = .ok () →
      (openInstance ignoreCase s h (some p) o).1 =
        { s.setHandle h ⟨some i.address, true, true⟩ with
          instances := addHandle i.address h s.instances }) ∧
    ∀ h path o, s.handles h = .fresh → (openInstance ignoreCase s h path o).2 = .ok () →
      ((openInstance ignoreCase s h path o).1.handles h).conn ∧
        ∃ i ∈ (openInstance ignoreCase s h path o).1.instances, h ∈ i.handles := by
  intro s
  have hs : Invariant ignoreCase s := Invariant.run hrun
  refine ⟨hs.apart, hs.identified, fun h hconn ↦ ?_, fun i hi ↦ ?_, fun h path o message hfresh herr ↦ ?_,
    fun h p o i hi q hq hfresh hnames hok ↦ hs.opened_joins hfresh hi hq hnames hok,
    fun h path o hfresh hok ↦ opened_listed hfresh hok⟩
  · rw [(hs.connected h).1] at hconn
    obtain ⟨a, ha⟩ := Option.isSome_iff_exists.mp hconn
    obtain ⟨i, hi, rfl⟩ := hs.joined h a ha
    refine ⟨i, ⟨hi, (hs.listed i hi h).mpr ha⟩, fun j hj ↦ ?_⟩
    have haddress := (hs.listed j hj.1 h).mp hj.2
    rw [ha] at haddress
    exact hs.eq_of_address hj.1 hi (Option.some.inj haddress).symm
  · refine ⟨hs.occupied i hi, hs.nodup i hi, fun h hh ↦ ?_⟩
    rw [(hs.connected h).1, (hs.listed i hi h).mp hh]
    rfl
  · rcases openInstance_cases ignoreCase path o hfresh with ⟨message', heq⟩ | ⟨created, i, -, heq⟩
    · rw [heq]
    · rw [heq] at herr
      cases herr

def sharedRun : List Event :=
  let file : FileIdentity := ⟨1, 7⟩
  let opening (before : Option FileIdentity) (allocated : Address) : Opening :=
    ⟨.ok (), before, some allocated, .ok (), .ok (), true, some file⟩
  [.opens 1 (some (ascii "/a")) (opening none 100),
    .opens 2 (some (ascii "/a")) (opening (some file) 200), .closes 1]

example : (Runs.run (step false) .initial sharedRun).instances =
    [⟨100, some (ascii "/a"), some ⟨1, 7⟩, [2]⟩] := by decide

theorem sharedRun_guarded : Runs.Guarded (step false) NewFile .initial sharedRun := by
  refine .cons ?_ (.cons ?_ (.cons trivial (.nil _)))
  · intro _ _ i hi
    cases hi
  · intro _ hbefore
    cases hbefore

theorem sharedRun_apart :
    (Runs.run (step false) .initial sharedRun).instances.Pairwise (Apart false) :=
  (instances_run false sharedRun sharedRun_guarded).1

end PdoDuckdb.Driver
