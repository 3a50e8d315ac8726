import PdoDuckdb.Bytes
import PdoDuckdb.Library.Runs
import Mathlib.Data.List.Forall2

namespace PdoDuckdb.Filesystem

inductive FileKind
  | missing
  | regular
  | other
deriving DecidableEq, Repr

structure Identity where
  kind : FileKind
  device : UInt64
  file : UInt64
deriving DecidableEq, Repr

namespace Identity

/-- The value-initialised `Identity`. -/
def absent : Identity := ⟨.missing, 0, 0⟩

def matchesWith (a b : Identity) : Prop :=
  a.kind = .regular ∧ b.kind = .regular ∧ a.device = b.device ∧ a.file = b.file

instance (a b : Identity) : Decidable (a.matchesWith b) := by
  unfold matchesWith
  infer_instance

theorem matchesWith_iff {a b : Identity} : a.matchesWith b ↔ a = b ∧ a.kind = .regular := by
  obtain ⟨k, d, f⟩ := a
  obtain ⟨k', d', f'⟩ := b
  simp only [matchesWith, mk.injEq]
  grind

theorem matchesWith_comm {a b : Identity} : a.matchesWith b ↔ b.matchesWith a := by
  simp only [matchesWith_iff]
  grind

end Identity

abbrev Path := List Byte

inductive Errno
  | noent
  | notdir
  | other (text : String)
deriving DecidableEq, Repr

/-- What `stat` reports for a path. -/
inductive Stat
  | failed (errno : Errno)
  | found (isRegular : Bool) (device inode : UInt64)
deriving DecidableEq, Repr

def identify : Stat → Except String Identity
  | .failed .noent => .ok .absent
  | .failed .notdir => .ok .absent
  | .failed (.other text) => .error ("Cannot inspect database filesystem identity: " ++ text)
  | .found false _ _ => .ok ⟨.other, 0, 0⟩
  | .found true device inode => .ok ⟨.regular, device, inode⟩

/-- Address of an `Owner`, the filesystem of one database. -/
abbrev Owner := ℕ

/-- Address of a `QueryToken`. -/
abbrev QueryToken := ℕ

structure PendingReference where
  owner : Owner
  query : Option QueryToken
deriving DecidableEq, Repr

structure Entry where
  path : Path
  identity : Identity
  owners : List Owner
  pending : List PendingReference
deriving DecidableEq, Repr

namespace Entry

def addOwner (e : Entry) (owner : Owner) : Entry :=
  if owner ∈ e.owners then e else { e with owners := e.owners ++ [owner] }

def addReference (e : Entry) (reference : PendingReference) : Entry :=
  if e.identity.kind = .regular then e.addOwner reference.owner
  else if reference ∈ e.pending then e
  else { e with pending := e.pending ++ [reference] }

def isUnused (e : Entry) : Bool := e.owners.isEmpty && e.pending.isEmpty

def capture (e : Entry) (observed : Identity) : Entry :=
  { e.pending.foldl (fun e reference ↦ e.addOwner reference.owner) e with
    identity := observed, pending := [] }

/-- `Remove`, in one entry. -/
def forget (e : Entry) (owner : Owner) : Entry :=
  { e with
    owners := e.owners.filter (· ≠ owner)
    pending := e.pending.filter (·.owner ≠ owner) }

/-- The failed branch of `Complete`, in one entry. -/
def retract (e : Entry) (reference : PendingReference) : Entry :=
  { e with pending := e.pending.filter (· ≠ reference) }

end Entry

/-- The file system during one operation: what `stat` reports at its successive
calls. -/
abbrev Looks := ℕ → Path → Stat

def replacedMessage : String :=
  "Database path was replaced or unlinked; close its filesystem owners before reopening"

namespace Registry

def validateEntry (fs : Path → Stat) (e : Entry) : Except String Unit :=
  if e.identity.kind = .regular then
    match identify (fs e.path) with
    | .error message => .error message
    | .ok seen => if e.identity.matchesWith seen then .ok () else .error replacedMessage
  else .ok ()

/-- The call of `stat` for an entry is numbered by the entry's place. -/
def validateFrom (look : Looks) (path : Path) : ℕ → List Entry → Except String Unit
  | _, [] => .ok ()
  | n, e :: es =>
    if e.path = path then
      match validateEntry (look n) e with
      | .error message => .error message
      | .ok () => validateFrom look path (n + 1) es
    else validateFrom look path (n + 1) es

def validate (look : Looks) (path : Path) (entries : List Entry) : Except String Unit :=
  validateFrom look path 0 entries

/-- `CapturePending` samples the missing entries, of one owner or of all. -/
def sampled (owner : Option Owner) (e : Entry) : Prop :=
  e.identity.kind = .missing ∧ ∀ o ∈ owner, ∃ reference ∈ e.pending, reference.owner = o

instance (owner : Option Owner) (e : Entry) : Decidable (sampled owner e) := by
  unfold sampled
  infer_instance

/-- A failed inspection ends the loop; what was captured before it stays. -/
def capturePendingFrom (look : Looks) (owner : Option Owner) :
    ℕ → List Entry → List Entry × Except String Unit
  | _, [] => ([], .ok ())
  | n, e :: es =>
    if sampled owner e then
      match identify (look n e.path) with
      | .error message => (e :: es, .error message)
      | .ok seen =>
        let rest := capturePendingFrom look owner (n + 1) es
        ((if seen.kind = .regular then e.capture seen else e) :: rest.1, rest.2)
    else
      let rest := capturePendingFrom look owner (n + 1) es
      (e :: rest.1, rest.2)

def capturePending (look : Looks) (owner : Option Owner) (entries : List Entry) :
    List Entry × Except String Unit :=
  capturePendingFrom look owner 0 entries

/-- The first entry with the path or the identity, as `Canonicalize` looks for
it; `none` when the loop runs through. -/
def lookup (fs : Path → Stat) (path : Path) (seen : Identity) (reference : PendingReference) :
    List Entry → Option (List Entry × Except String Path)
  | [] => none
  | e :: es =>
    if e.path = path ∨ e.identity.matchesWith seen then
      match validateEntry fs e with
      | .error message => some (e :: es, .error message)
      | .ok () => some (e.addReference reference :: es, .ok e.path)
    else (lookup fs path seen reference es).map fun r ↦ (e :: r.1, r.2)

def canonicalize (look : Looks) (reference : PendingReference) (path : Path)
    (entries : List Entry) : List Entry × Except String Path :=
  match capturePending look none entries with
  | (entries, .error message) => (entries, .error message)
  | (entries, .ok ()) =>
    match identify (look entries.length path) with
    | .error message => (entries, .error message)
    | .ok seen =>
      match lookup (look (entries.length + 1)) path seen reference entries with
      | some r => r
      | none =>
        if seen.kind = .other then (entries, .ok path)
        else (entries ++ [(⟨path, seen, [], []⟩ : Entry).addReference reference], .ok path)

def refresh (look : Looks) (owner : Owner) (entries : List Entry) :
    List Entry × Except String Unit :=
  capturePending look (some owner) entries

def removeUnused (entries : List Entry) : List Entry := entries.filter (!·.isUnused)

def remove (owner : Owner) (entries : List Entry) : List Entry :=
  removeUnused (entries.map (·.forget owner))

/-- `Complete`, in one entry: a failed inspection leaves it as it is. -/
def completeEntry (fs : Path → Stat) (reference : PendingReference) (failed : Bool) (e : Entry) :
    Entry :=
  if reference ∈ e.pending then
    match identify (fs e.path) with
    | .error _ => e
    | .ok seen =>
      if seen.kind = .regular then e.capture seen
      else if seen.kind = .missing ∧ failed then e.retract reference
      else e
  else e

def completeFrom (look : Looks) (reference : PendingReference) (failed : Bool) :
    ℕ → List Entry → List Entry
  | _, [] => []
  | n, e :: es =>
    completeEntry (look n) reference failed e :: completeFrom look reference failed (n + 1) es

def complete (look : Looks) (reference : PendingReference) (failed : Bool)
    (entries : List Entry) : List Entry :=
  removeUnused (completeFrom look reference failed 0 entries)

end Registry

inductive Call
  | validate (path : Path)
  | canonicalize (reference : PendingReference) (path : Path)
  | refresh (owner : Owner)
  | remove (owner : Owner)
  | complete (reference : PendingReference) (failed : Bool)
deriving DecidableEq, Repr

namespace Registry

def step (look : Looks) (entries : List Entry) : Call → List Entry
  | .validate _ => entries
  | .canonicalize reference path => (canonicalize look reference path entries).1
  | .refresh owner => (refresh look owner entries).1
  | .remove owner => remove owner entries
  | .complete reference failed => complete look reference failed entries

end Registry

end PdoDuckdb.Filesystem
