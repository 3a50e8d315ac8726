import PdoDuckdb.Bytes
import PdoDuckdb.Library.Exits
import Mathlib.Logic.Function.Basic

namespace PdoDuckdb.Driver.Profile

open Library

inductive Setting
  | loggingStorage | allowedConfigs | tempDirectory | allowedDirectories | allowedPaths
  | autoinstallKnownExtensions | autoloadKnownExtensions | allowCommunityExtensions
  | allowExtensionsMetadataMismatch | allowPersistentSecrets | allowUnredactedSecrets
  | allowUnsignedExtensions | enableExternalFileCache | enableHttpMetadataCache
  | allowExtensionRepositories | enableExternalAccess | lockConfiguration
deriving DecidableEq, Repr

inductive Value
  | emptyList | emptyText | bool (b : Bool) | text (s : List Byte)
deriving DecidableEq, Repr

/-- `pdo_duckdb_profile_pre_detach`. -/
def profilePreDetach : List (Setting × Value) :=
  [(.loggingStorage, .text (ascii "memory")), (.allowedConfigs, .emptyList), (.tempDirectory, .emptyText)]

/-- `pdo_duckdb_profile_post_detach`. -/
def profilePostDetach (v2 : Bool) : List (Setting × Value) :=
  [(.allowedDirectories, .emptyList), (.allowedPaths, .emptyList), (.autoinstallKnownExtensions, .bool false),
    (.autoloadKnownExtensions, .bool false), (.allowCommunityExtensions, .bool false),
    (.allowExtensionsMetadataMismatch, .bool false), (.allowPersistentSecrets, .bool false),
    (.allowUnredactedSecrets, .bool false), (.allowUnsignedExtensions, .bool false),
    (.enableExternalFileCache, .bool false), (.enableHttpMetadataCache, .bool false)] ++
  (if v2 then [(.allowExtensionRepositories, .text (ascii "forbidden"))] else []) ++
  [(.enableExternalAccess, .bool false), (.lockConfiguration, .bool true)]

/-- `PDO_DUCKDB_SANDBOX_CONTAINED_EXTENSIONS`. -/
def containedExtensions : List (List Byte) :=
  ["autocomplete", "core_functions", "excel", "fts", "httpfs", "icu", "inet", "json", "parquet", "spatial",
    "tpcds", "tpch", "vss"].map ascii

structure Database where
  name : List Byte
  path : List Byte
  nonempty : path ≠ []
deriving DecidableEq

/-- What the profile is about in the engine of an instance. -/
structure View where
  setting : Setting → Value
  attached : List Database
  loaded : List (List Byte)
  allowedPaths : List (List Byte)
  allowedDirectories : List Value

/-- The documented effect of a `SET` of the profile. Turning external access off
allows the paths of what is attached, and the temporary directory. -/
def View.set (v : View) (s : Setting × Value) : View :=
  { v with
    setting := Function.update v.setting s.1 s.2
    allowedPaths :=
      if s = (.allowedPaths, .emptyList) then []
      else if s = (.enableExternalAccess, .bool false) then v.allowedPaths ++ v.attached.map Database.path
      else v.allowedPaths
    allowedDirectories :=
      if s = (.allowedDirectories, .emptyList) then []
      else if s = (.enableExternalAccess, .bool false) ∧ v.setting .tempDirectory ≠ .emptyText then
        v.allowedDirectories ++ [v.setting .tempDirectory]
      else v.allowedDirectories }

def View.detach (v : View) (name : List Byte) : View :=
  { v with attached := v.attached.filter fun d ↦ d.name ≠ name }

abbrev Cell := Option (List Byte)

/-- The result of a helper query: whether its columns are as many VARCHARs as they
should be, its rows, and whether fetching them ends in an error. -/
structure Rows where
  shaped : Bool
  rows : List (List Cell)
  failed : Bool

/-- What `duckdb_extensions()` comes to: an error, with whether it names a file of an
installation under way and whether the time for retries is over, or rows. -/
inductive Listing
  | failed (race late : Bool)
  | rows (rows : Rows)

/-- The engine of an instance, PHP's memory and the file system, whose state may
change in any way with each call. -/
structure SandboxEngine (Ω : Type) where
  view : Ω → View
  set : Setting × Value → Ω → Bool × Ω
  detach : List Byte → Ω → Bool × Ω
  listDatabases : Ω → Option Rows × Ω
  listExtensions : Ω → Listing × Ω
  clearInstanceWriters : Ω → Bool × Ω
  clearLocalWriters : Option ℕ → Ω → Bool × Ω
  connect : Ω → Bool × Ω
  stopQuackListeners : Ω → PUnit × Ω
  allocate : Ω → Bool × Ω
  strdup : Ω → Bool × Ω
  insideBasedir : List Byte → List Byte → Bool

/-- `pdo_duckdb_instance`, as far as the sandbox goes. Handles are numbered. -/
structure Shared where
  sandboxRefusal : Option (List Byte)
  externalAccessDisabled : Bool
  sandboxBasedir : Option (List Byte)
  handles : List ℕ
deriving DecidableEq, Repr

/-- `pdo_duckdb_refuse_sandbox`; the first reason stays. -/
def Shared.refuse (i : Shared) (reason : List Byte) : Shared :=
  { i with sandboxRefusal := i.sandboxRefusal.or (some reason) }

/-- The state of an instance. The last field is not in the code: the `open_basedir`
of the call that has been admitted and holds the lock. -/
structure State (Ω : Type) where
  world : Ω
  shared : Shared
  admitted : Option (List Byte)

inductive Bailed
  | bailed

abbrev Sandbox (Ω α : Type) := Exits Bailed (State Ω) α

section Code

variable {Ω α : Type}

def call (f : Ω → α × Ω) : Sandbox Ω α := Exits.step fun s ↦ ((f s.world).1, { s with world := (f s.world).2 })

def refuse (reason : List Byte) : Sandbox Ω PUnit := Exits.step fun s ↦ (⟨⟩, { s with shared := s.shared.refuse reason })

def shared : Sandbox Ω Shared := Exits.step fun s ↦ (s.shared, s)

variable (E : SandboxEngine Ω)

def allocate : Sandbox Ω PUnit := do
  if ← call E.allocate then pure ⟨⟩
  else Exits.exit .bailed

/-- The cells of a row as C strings; not those with a NUL byte. -/
def copyCells : List Cell → Sandbox Ω Bool
  | [] => pure true
  | none :: cells => copyCells cells
  | some bytes :: cells =>
    if 0 ∈ bytes then pure false
    else do
      allocate E
      copyCells cells

structure Walk (α : Type) where
  ok : Bool
  rows : ℕ
  nulCell : Bool
  found : α

def walkRows (callback : List Cell → α → Sandbox Ω (Bool × α)) : List (List Cell) → ℕ → α → Sandbox Ω (Walk α)
  | [], n, a => pure ⟨true, n, false, a⟩
  | row :: rest, n, a => do
    if ← copyCells E row then do
      let next ← callback row a
      if next.1 then walkRows callback rest (n + 1) next.2
      else pure ⟨false, n + 1, false, next.2⟩
    else pure ⟨false, n, true, a⟩

/-- `pdo_duckdb_each_varchar_row`. -/
def eachVarcharRow (callback : List Cell → α → Sandbox Ω (Bool × α)) (a : α) (res : Rows) : Sandbox Ω (Walk α) :=
  if res.shaped then do
    let walk ← walkRows E callback res.rows 0 a
    pure { walk with ok := walk.ok && !res.failed }
  else pure ⟨false, 0, false, a⟩

/-- `pdo_duckdb_append_quoted`. -/
def appendQuoted (s : List Byte) (quote : Byte) : List Byte :=
  quote :: (s.flatMap fun c ↦ if c = quote then [quote, c] else [c]) ++ [quote]

/-- `pdo_duckdb_detach_row`. -/
def detachRow (basedir : List Byte) : List Cell → PUnit → Sandbox Ω (Bool × PUnit)
  | [some name, some path], _ =>
    if path = [] then pure (true, ⟨⟩)
    else do
      -- `php_check_open_basedir_ex`
      allocate E
      if E.insideBasedir basedir path then pure (true, ⟨⟩)
      else do
        allocate E
        let ok ← call (E.detach (appendQuoted name '"'.toUInt8))
        pure (ok, ⟨⟩)
  | _, _ => pure (true, ⟨⟩)

/-- `pdo_duckdb_detach_out_of_basedir`. -/
def detachOutOfBasedir (basedir : List Byte) : Sandbox Ω Bool := do
  match ← call E.listDatabases with
  | none => pure false
  | some res => do
    let walk ← eachVarcharRow E (detachRow E basedir) ⟨⟩ res
    if walk.nulCell then do
      refuse (ascii "an attached database name or path contains a NUL byte")
      pure walk.ok
    else pure walk.ok

/-- `pdo_duckdb_query_extensions`, with so many retries left. -/
def queryExtensions : ℕ → Sandbox Ω (Option Rows)
  | 0 => do
    match ← call E.listExtensions with
    | .rows res => pure (some res)
    | .failed _ _ => pure none
  | retries + 1 => do
    match ← call E.listExtensions with
    | .rows res => pure (some res)
    | .failed race late => if race && !late then queryExtensions retries else pure none

inductive QuackState
  | absent | loaded | unknown
deriving DecidableEq, Repr

/-- `pdo_duckdb_loaded_extension_row`, on the names so far and whether quack is one. -/
def loadedExtensionRow : List Cell → List (List Byte) × Bool → Sandbox Ω (Bool × List (List Byte) × Bool)
  | some name :: _, loaded => do
    allocate E
    pure (true, loaded.1 ++ [name], loaded.2 || decide (name = ascii "quack"))
  | _, loaded => pure (true, loaded)

def listedReason : List Byte := ascii "the loaded DuckDB extensions could not be listed"

/-- The reason that names what is loaded, cut to the size of its buffer. -/
def uncontainedReason (names : List (List Byte)) : List Byte :=
  (ascii "loaded DuckDB extensions are not contained by it (" ++
    (if names = [] then ascii "unnamed" else (ascii ", ").intercalate names) ++ ascii ")").take 199

/-- `pdo_duckdb_check_loaded_extensions`. -/
def checkLoadedExtensions : Sandbox Ω (Bool × QuackState) := do
  match ← queryExtensions E 1000 with
  | none => do
    refuse listedReason
    pure (false, .unknown)
  | some res => do
    let walk ← eachVarcharRow E (loadedExtensionRow E) ([], false) res
    if walk.ok then
      if walk.rows = 0 then pure (true, if walk.found.2 then .loaded else .absent)
      else do
        refuse (uncontainedReason walk.found.1)
        pure (false, if walk.found.2 then .loaded else .absent)
    else do
      refuse listedReason
      pure (false, if walk.found.2 then .loaded else .unknown)

def setAll : List (Setting × Value) → Sandbox Ω Bool
  | [] => pure true
  | s :: rest => do
    if ← call (E.set s) then setAll rest
    else pure false

def trySet (l : List (Setting × Value)) : Sandbox Ω PUnit := Exits.each (fun s ↦ do
  let _ ← call (E.set s)
  pure ⟨⟩) l

def stopRefused : QuackState → Sandbox Ω PUnit
  | .absent => pure ⟨⟩
  | .loaded => call E.stopQuackListeners
  | .unknown => do
    if ← setAll E [(.autoinstallKnownExtensions, .bool false), (.autoloadKnownExtensions, .bool false)] then
      call E.stopQuackListeners
    else pure ⟨⟩

/-- `pdo_duckdb_contain_refused`. -/
def containRefused (v2 : Bool) (quack : QuackState) : Sandbox Ω PUnit := do
  stopRefused E quack
  trySet E profilePreDetach
  trySet E (profilePostDetach v2)

/-- `pdo_duckdb_admit_loaded_extensions`. -/
def admitLoadedExtensions (v2 : Bool) : Sandbox Ω Bool := do
  let (ok, quack) ← checkLoadedExtensions E
  if ok then pure true
  else do
    containRefused E v2 quack
    pure false

/-- The local writers of every member, and of the inspector; each in any case. -/
def clearAllLocalWriters : List (Option ℕ) → Sandbox Ω Bool
  | [] => pure true
  | h :: rest => do
    let ok ← call (E.clearLocalWriters h)
    let others ← clearAllLocalWriters rest
    pure (ok && others)

/-- The end of `pdo_duckdb_apply_instance_sandbox`. -/
def recordBasedir (basedir : List Byte) : Sandbox Ω Bool := do
  Exits.step fun s ↦ (PUnit.unit, { s with shared := { s.shared with externalAccessDisabled := true } })
  if ← call E.strdup then do
    Exits.step fun s ↦ (PUnit.unit, { s with shared := { s.shared with sandboxBasedir := some basedir } })
    pure true
  else do
    refuse (ascii "Unable to record the shared open_basedir sandbox")
    pure false

/-- A step of the transition; where it fails, the instance is refused. -/
def orRefuse (step : Sandbox Ω Bool) (reason : List Byte) (next : Sandbox Ω Bool) : Sandbox Ω Bool := do
  if ← step then next
  else do
    refuse reason
    pure false

/-- `pdo_duckdb_apply_instance_sandbox` after its first loop. -/
def applyProfile (v2 : Bool) (basedir : List Byte) : Sandbox Ω Bool := do
  if ← admitLoadedExtensions E v2 then
    orRefuse (setAll E profilePreDetach) (ascii "Unable to apply the shared open_basedir sandbox") <|
    orRefuse (detachOutOfBasedir E basedir) (ascii "Unable to detach databases outside open_basedir") <|
    orRefuse (setAll E (profilePostDetach v2)) (ascii "Unable to lock the shared open_basedir sandbox") <|
    recordBasedir E basedir
  else pure false

/-- `pdo_duckdb_apply_instance_sandbox`. -/
def applyInstanceSandbox (v2 : Bool) (basedir : List Byte) : Sandbox Ω Bool := do
  let i ← shared
  orRefuse (clearAllLocalWriters E (i.handles.map some ++ [none]))
    (ascii "Unable to stop a shared connection's file sinks") (applyProfile E v2 basedir)

/-- `pdo_duckdb_clear_instance_writers`. -/
def clearInstanceWriters : Sandbox Ω Bool :=
  orRefuse (call E.clearInstanceWriters) (ascii "Unable to stop the shared instance's file log sink") (pure true)

/-- `pdo_duckdb_disable_external_access`. -/
def disableExternalAccess (v2 : Bool) (basedir : List Byte) : Sandbox Ω Bool := do
  if ← clearInstanceWriters E then
    orRefuse (call E.connect) listedReason (applyInstanceSandbox E v2 basedir)
  else pure false

/-- `pdo_duckdb_enforce_sandbox_locked`, for a handle of the instance. -/
def enforceSandboxLocked (v2 : Bool) (basedir : List Byte) : Sandbox Ω Bool := do
  let i ← shared
  if i.sandboxRefusal.isSome then pure false
  else if basedir = [] then pure true
  else if i.externalAccessDisabled then pure (decide (i.sandboxBasedir = some basedir))
  else disableExternalAccess E v2 basedir

/-- `pdo_duckdb_native_enter`: whether it admits the call, `none` when it bails out. -/
def nativeEnter (v2 : Bool) (basedir : List Byte) (s : State Ω) : Option Bool × State Ω :=
  match enforceSandboxLocked E v2 basedir s with
  | (.ok allowed, s) => (some allowed, { s with admitted := if allowed then some basedir else none })
  | (.error _, s) =>
    (none, { s with shared := s.shared.refuse (ascii "The shared sandbox transition was interrupted"), admitted := none })

/-- `pdo_duckdb_native_cleanup_enter`. -/
def nativeCleanupEnter (h : ℕ) (basedir : List Byte) : Sandbox Ω PUnit :=
  if basedir = [] then pure ⟨⟩
  else do
    let _ ← clearInstanceWriters E
    let _ ← orRefuse (call (E.clearLocalWriters (some h)))
      (ascii "Unable to stop a connection's file sinks before native cleanup") (pure true)

end Code

/-- An entry or a cleanup of a handle under an `open_basedir`, the end of an admitted
call, what the SQL of one makes of the engine, and handles that come and go. -/
inductive Event (Ω : Type)
  | enter (h : ℕ) (basedir : List Byte)
  | cleanupEnter (h : ℕ) (basedir : List Byte)
  | leave
  | sql (world : Ω)
  | joins (h : ℕ)
  | parts (h : ℕ)

/-- What a locked configuration without external access lets SQL do: no setting
changes, no extension is loaded, and only allowed paths are attached. -/
def View.Kept (v v' : View) : Prop :=
  v.setting .lockConfiguration = .bool true → v.setting .enableExternalAccess = .bool false →
    v'.setting = v.setting ∧ (∀ d ∈ v'.attached, d ∈ v.attached ∨ d.path ∈ v.allowedPaths) ∧
    (∀ x ∈ v'.loaded, x ∈ v.loaded) ∧ (∀ p ∈ v'.allowedPaths, p ∈ v.allowedPaths) ∧
    ∀ d ∈ v'.allowedDirectories, d ∈ v.allowedDirectories

section Steps

variable {Ω : Type} (E : SandboxEngine Ω) (v2 : Bool)

/-- A call is admitted when none is; only an admitted call runs SQL. -/
def Admits (s : State Ω) : Event Ω → Prop
  | .enter h _ => h ∈ s.shared.handles ∧ s.admitted = none
  | .cleanupEnter h _ => h ∈ s.shared.handles
  | .leave => True
  | .sql world => s.admitted.isSome ∧ (E.view s.world).Kept (E.view world)
  | .joins _ => True
  | .parts _ => True

def step (s : State Ω) : Event Ω → State Ω
  | .enter _ basedir => (nativeEnter E v2 basedir s).2
  | .cleanupEnter h basedir => (nativeCleanupEnter E h basedir s).2
  | .leave => { s with admitted := none }
  | .sql world => { s with world := world }
  | .joins h => { s with shared := { s.shared with handles := h :: s.shared.handles } }
  | .parts h => { s with shared := { s.shared with handles := s.shared.handles.erase h } }

def State.initial (w : Ω) : State Ω := ⟨w, ⟨none, false, none, []⟩, none⟩

end Steps

end PdoDuckdb.Driver.Profile
