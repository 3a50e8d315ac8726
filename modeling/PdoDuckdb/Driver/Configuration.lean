import PdoDuckdb.Cells.Php
import PdoDuckdb.Driver.Instances
import PdoDuckdb.Library.Custody
import PdoDuckdb.Library.Exits

namespace PdoDuckdb.Driver

open Byte Library
open Cells (Zval Heap)
open Value (Key)

section Texts

/-- `zend_binary_strcasecmp`. -/
def binaryStrcasecmp : List Byte → List Byte → ℤ
  | [], [] => 0
  | [], _ :: _ => -1
  | _ :: _, [] => 1
  | c :: s, d :: t =>
    if lowercase c ≠ lowercase d then (lowercase c).toNat - (lowercase d).toNat
    else binaryStrcasecmp s t

/-- `pdo_duckdb_config_key_matches`. -/
def configKeyMatches (key name : List Byte) : Bool :=
  key.length = name.length && binaryStrcasecmp key name = 0

/-- `php_strtok_r` on what is left of the text: a token, and what is left after it. -/
def strtokR (delimiter : Byte) : Option (List Byte) → Option (List Byte × Option (List Byte))
  | none => none
  | some s =>
    match s.dropWhile (· = delimiter) with
    | [] => none
    | c :: s =>
      match (c :: s).dropWhile (· ≠ delimiter) with
      | [] => some (c :: s, none)
      | _ :: rest => some ((c :: s).takeWhile (· ≠ delimiter), some rest)

/-- The tokens of the loop on `php_strtok_r`, no more of them than the fuel. -/
def strtokAll (delimiter : Byte) : ℕ → Option (List Byte) → List (List Byte)
  | 0, _ => []
  | n + 1, s =>
    match strtokR delimiter s with
    | none => []
    | some (token, rest) => token :: strtokAll delimiter n rest

end Texts

section Options

structure Setting where
  name : List Byte
  value : List Byte
deriving DecidableEq, Repr

/-- The names that `pdo_duckdb_sandbox_forbids_config_key` compares with. -/
def forbiddenNames (haveV2 : Bool) : List (List Byte) :=
  [ascii "allowed_directories", ascii "allowed_paths", ascii "allowed_configs",
    ascii "file_search_path", ascii "temp_directory", ascii "extension_directory",
    ascii "extension_directories", ascii "custom_extension_repository",
    ascii "autoinstall_extension_repository", ascii "autoinstall_known_extensions",
    ascii "autoload_known_extensions", ascii "allow_community_extensions",
    ascii "allow_extensions_metadata_mismatch", ascii "allow_persistent_secrets",
    ascii "allow_unredacted_secrets", ascii "allow_unsigned_extensions",
    ascii "default_secret_storage", ascii "enable_external_file_cache",
    ascii "enable_http_metadata_cache", ascii "home_directory", ascii "http_logging_output",
    ascii "log_query_path"] ++
  (if haveV2 then [ascii "allow_extension_repositories", ascii "extension_repository_directory"]
    else []) ++
  [ascii "secret_directory"]

/-- `pdo_duckdb_sandbox_forbids_config_key`. -/
def sandboxForbidsConfigKey (haveV2 : Bool) (key : List Byte) : Bool :=
  (forbiddenNames haveV2).any (configKeyMatches key)

/-- The table of `pdo_duckdb_apply_sandbox_config`. -/
def sandboxOptions (haveV2 : Bool) : List Setting :=
  [⟨ascii "temp_directory", []⟩,
    ⟨ascii "autoinstall_known_extensions", ascii "false"⟩,
    ⟨ascii "autoload_known_extensions", ascii "false"⟩,
    ⟨ascii "allow_community_extensions", ascii "false"⟩,
    ⟨ascii "allow_extensions_metadata_mismatch", ascii "false"⟩,
    ⟨ascii "allow_persistent_secrets", ascii "false"⟩,
    ⟨ascii "allow_unredacted_secrets", ascii "false"⟩,
    ⟨ascii "allow_unsigned_extensions", ascii "false"⟩,
    ⟨ascii "enable_external_file_cache", ascii "false"⟩,
    ⟨ascii "enable_http_metadata_cache", ascii "false"⟩] ++
  if haveV2 then [⟨ascii "allow_extension_repositories", ascii "forbidden"⟩] else []

/-- The text that PHP makes of a double, and `zend_zval_type_name`. -/
structure PhpTexts where
  doubleText : UInt64 → List Byte
  typeName : Zval → List Byte

/-- `pdo_duckdb_config_scalar_to_string`. -/
def configScalarToString (php : PhpTexts) (H : Heap) (z : Zval) : Except (List Byte) (List Byte) :=
  match H.deref z with
  | .null => .ok []
  | .bool b => .ok (if b then ascii "true" else ascii "false")
  | .long n => .ok (signedDecimal n.toInt)
  | .double bits => .ok (php.doubleText bits)
  | .string s => .ok s
  | z => .error (ascii "PDO::DUCKDB_ATTR_CONFIG values must be scalar or null, " ++ php.typeName z ++
      ascii " given")

/-- `PDO_DUCKDB_ATTR_CONFIG`. -/
def attrConfig : Key := .index 1000

/-- The entries of the CONFIG array of the driver options; none where it is
something else than an array. -/
def configEntries (H : Heap) (driverOptions : Option Zval) : Option (List (Key × Zval)) :=
  match driverOptions with
  | some (.array t) =>
    match (H.table t).find attrConfig with
    | none => some []
    | some cfg =>
      match H.deref cfg with
      | .array c => some (H.table c).entries
      | _ => none
  | _ => some []

end Options

section Building

/-- What the engine answers to `duckdb_create_config` and to `duckdb_set_config`,
by its own state and by what is set already. -/
structure ConfigEngine (ω : Type) where
  createConfig : ω → Bool × ω
  setConfig : ω → List Setting → Setting → Bool × ω

abbrev Configuration := ℕ × Unit

/-- The configuration objects, and what was set on each, the last at the end. -/
structure ConfigWorld (ω : Type) where
  engine : ω
  objects : Custody Unit
  settings : ℕ → List Setting

/-- A function that has the local `duckdb_config config`. It leaves with a message. -/
abbrev Configuring (ω : Type) := Exits (List Byte) (Option Configuration × ConfigWorld ω)

variable {ω : Type} (E : ConfigEngine ω)

/-- `duckdb_destroy_config`, which clears the pointer as well. -/
def destroyConfig : Configuring ω PUnit := Exits.step fun s ↦
  match s.1 with
  | none => (⟨⟩, s)
  | some h => (⟨⟩, none, { s.2 with objects := s.2.objects.release h })

def createConfig : Configuring ω Bool := Exits.step fun s ↦
  match E.createConfig s.2.engine with
  | (false, e) => (false, s.1, { s.2 with engine := e })
  | (true, e) =>
    let created := s.2.objects.create ()
    (true, some created.1,
      ⟨e, created.2, Function.update s.2.settings created.1.1 []⟩)

def setConfig (o : Setting) : Configuring ω Bool := Exits.step fun s ↦
  match s.1 with
  | none => (false, s)
  | some h =>
    match E.setConfig s.2.engine (s.2.settings h.1) o with
    | (false, e) => (false, some h, ⟨e, s.2.objects.use [h], s.2.settings⟩)
    | (true, e) => (true, some h, ⟨e, s.2.objects.use [h],
        Function.update s.2.settings h.1 (s.2.settings h.1 ++ [o])⟩)

def localConfig : Configuring ω (Option Configuration) := Exits.step fun s ↦ (s.1, s)

/-- `DUCKDB_ENSURE_CONFIG`. -/
def ensureConfig : Configuring ω PUnit := do
  match ← localConfig with
  | some _ => pure ⟨⟩
  | none =>
    match ← createConfig E with
    | true => pure ⟨⟩
    | false => Exits.exit (ascii "Unable to allocate DuckDB configuration")

def failWith {α : Type} (message : List Byte) : Configuring ω α := do
  destroyConfig
  Exits.exit message

/-- `pdo_duckdb_set_one_config`. -/
def setOneConfig (key value : List Byte) : Configuring ω PUnit := do
  if configKeyMatches key (ascii "force_mbedtls_unsafe") then
    failWith (ascii
      "DuckDB configuration option \"force_mbedtls_unsafe\" cannot be set at connect time")
  else
    match ← setConfig E ⟨key, value⟩ with
    | true => pure ⟨⟩
    | false => failWith (ascii "Invalid DuckDB configuration option \"" ++ key ++ ascii "\"")

/-- `pdo_duckdb_reject_sandbox_config_key`. -/
def rejectSandboxConfigKey (haveV2 : Bool) (key : List Byte) : Configuring ω PUnit :=
  if sandboxForbidsConfigKey haveV2 key then
    failWith (ascii "DuckDB configuration option \"" ++ key ++
      ascii "\" is not allowed when open_basedir is set")
  else pure ⟨⟩

/-- `pdo_duckdb_apply_sandbox_config`. -/
def applySandboxConfig (haveV2 : Bool) : Configuring ω PUnit :=
  Exits.each (fun o ↦ do
    match ← setConfig E o with
    | true => pure ⟨⟩
    | false =>
      failWith (ascii "Unable to apply the open_basedir sandbox (" ++ o.name ++ ascii ") to DuckDB"))
    (sandboxOptions haveV2)

def applyOption (haveV2 sandbox : Bool) (key value : List Byte) : Configuring ω PUnit := do
  if sandbox then
    rejectSandboxConfigKey haveV2 key
  ensureConfig E
  setOneConfig E key value

def applyDsnPair (haveV2 sandbox : Bool) (pair : List Byte) : Configuring ω PUnit :=
  if equals ∈ pair ∧ pair.head? ≠ some equals then
    applyOption E haveV2 sandbox (pair.takeWhile (· ≠ equals)) (pair.dropWhile (· ≠ equals)).tail
  else if pair ≠ [] then failWith (ascii "Malformed DuckDB DSN option (expected key=value)")
  else pure ⟨⟩

def applyConfigEntry (php : PhpTexts) (H : Heap) (haveV2 sandbox : Bool) (entry : Key × Zval) :
    Configuring ω PUnit :=
  match entry.1 with
  | .index _ => failWith (ascii "PDO::DUCKDB_ATTR_CONFIG keys must be option-name strings")
  | .name key =>
    if 0 ∈ key then
      failWith (ascii
        "PDO::DUCKDB_ATTR_CONFIG option names and values must not contain a NUL byte")
    else
      match configScalarToString php H entry.2 with
      | .error message => failWith message
      | .ok value =>
        if 0 ∈ value then
          failWith (ascii
            "PDO::DUCKDB_ATTR_CONFIG option names and values must not contain a NUL byte")
        else applyOption E haveV2 sandbox key value

def applyDsnOptions (haveV2 sandbox : Bool) (opts : List Byte) : Configuring ω PUnit :=
  Exits.each (applyDsnPair E haveV2 sandbox) (strtokAll semicolon opts.length (some opts))

/-- The part on `PDO_DUCKDB_ATTR_CONFIG`. -/
def applyDriverOptions (php : PhpTexts) (H : Heap) (haveV2 sandbox : Bool)
    (driverOptions : Option Zval) : Configuring ω PUnit :=
  match configEntries H driverOptions with
  | none => failWith (ascii "PDO::DUCKDB_ATTR_CONFIG must be an array of option => value")
  | some entries => Exits.each (applyConfigEntry E php H haveV2 sandbox) entries

def applySandbox (haveV2 sandbox : Bool) : Configuring ω PUnit :=
  if sandbox then do
    ensureConfig E
    applySandboxConfig E haveV2
  else pure ⟨⟩

/-- `pdo_duckdb_build_config`. The C strings are lists without a NUL byte, and
the result is what `*out_config` is set to. -/
def buildConfig (php : PhpTexts) (H : Heap) (haveV2 : Bool) (openBasedir dsnOpts : Option (List Byte))
    (driverOptions : Option Zval) : Exits (List Byte) (ConfigWorld ω) (Option Configuration) :=
  let sandbox := decide (openBasedir.getD [] ≠ [])
  Exits.enclosed none (fun _ w ↦ w) (do
    applyDsnOptions E haveV2 sandbox (dsnOpts.getD [])
    applyDriverOptions E php H haveV2 sandbox driverOptions
    applySandbox E haveV2 sandbox
    ensureConfig E
    localConfig)

end Building

end PdoDuckdb.Driver
