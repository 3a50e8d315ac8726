import PdoDuckdb.Filesystem.Effects
import Mathlib.Data.List.Nodup

namespace PdoDuckdb.Filesystem

open Registry Library

/-- A client context that carries a `CaptureCreatedFiles`. -/
abbrev Connection := ℕ

structure CaptureCreatedFiles where
  active : Bool
  query : Option QueryToken
deriving DecidableEq, Repr

/-- What `IdentityFileSystem::CanonicalizePath` is given, and what the engine's
file system makes of it: the canonical path, the lexical one that the pre-check
reads, and how the expanded path parses. -/
structure Request where
  canonical : Path
  lexical : Path
  isLocal : Bool
  hasScheme : Bool
  context : Option Connection
deriving DecidableEq, Repr

structure System where
  entries : List Entry
  states : Connection → CaptureCreatedFiles
  alive : Owner → Bool
  /-- The next fresh query token. -/
  next : QueryToken

namespace System

def initial : System where
  entries := []
  states := fun _ ↦ ⟨false, none⟩
  alive := fun _ ↦ true
  next := 0

def setState (s : System) (c : Connection) (state : CaptureCreatedFiles) : System :=
  { s with states := Function.update s.states c state }

def queryBegin (s : System) (c : Connection) : System := s.setState c ⟨true, none⟩

/-- `ActiveQuery`: the token is made when a running query first asks for it. -/
def activeQuery (s : System) (c : Connection) : System × Option QueryToken :=
  if (s.states c).active ∧ (s.states c).query = none then
    ({ s.setState c ⟨true, some s.next⟩ with next := s.next + 1 }, some s.next)
  else (s, (s.states c).query)

def queryOf (s : System) : Option Connection → System × Option QueryToken
  | none => (s, none)
  | some c => s.activeQuery c

def canonicalizePath (s : System) (look : Looks) (owner : Owner) (request : Request) :
    System × Except String Path :=
  if !request.isLocal || request.hasScheme then (s, .ok request.canonical)
  else
    match validate look request.lexical s.entries with
    | .error message => (s, .error message)
    | .ok () =>
      let asked := s.queryOf request.context
      let found := canonicalize (fun n ↦ look (s.entries.length + n)) ⟨owner, asked.2⟩
        request.canonical asked.1.entries
      ({ asked.1 with entries := found.1 }, found.2)

/-- `QueryEnd` of a connection whose database has the given owner. -/
def queryEnd (s : System) (owner : Owner) (look : Looks) (c : Connection) (failed : Bool) : System :=
  let ended := s.setState c ⟨false, none⟩
  match (s.states c).query with
  | none => ended
  | some token =>
    if s.alive owner then
      { ended with entries := complete look ⟨owner, some token⟩ failed s.entries }
    else ended

end System

inductive Event
  | queryBegin (c : Connection)
  | request (owner : Owner) (request : Request) (look : Looks)
  | queryEnd (c : Connection) (failed : Bool) (look : Looks)
  | refresh (owner : Owner) (look : Looks)
  | remove (owner : Owner)

namespace System

/-- One event of the process; the owner of each connection's database is fixed
when the connection is made. An owner that is gone makes no calls. -/
def step (ownerOf : Connection → Owner) (s : System) : Event → System
  | .queryBegin c => s.queryBegin c
  | .request owner request look =>
    if s.alive owner then (s.canonicalizePath look owner request).1 else s
  | .queryEnd c failed look => s.queryEnd (ownerOf c) look c failed
  | .refresh owner look =>
    if s.alive owner then { s with entries := (refresh look owner s.entries).1 } else s
  | .remove owner =>
    { s with
      entries := remove owner s.entries
      alive := Function.update s.alive owner false }

variable {ownerOf : Connection → Owner} {s : System} {c c' : Connection} {ev : Event}
  {look : Looks} {owner : Owner} {t : QueryToken}

@[simp] theorem setState_entries (state : CaptureCreatedFiles) :
    (s.setState c state).entries = s.entries := rfl

@[simp] theorem activeQuery_entries : (s.activeQuery c).1.entries = s.entries := by
  unfold activeQuery
  split <;> rfl

@[simp] theorem queryOf_entries (context : Option Connection) :
    (s.queryOf context).1.entries = s.entries := by
  cases context with
  | none => rfl
  | some c => exact activeQuery_entries

/-- The one call of an event that can change the registry. -/
inductive Calls (ownerOf : Connection → Owner) (s : System) : Event → Looks → Call → Prop
  | request {owner : Owner} {request : Request} {look look' : Looks} {query : Option QueryToken} :
      Calls ownerOf s (.request owner request look) look'
        (.canonicalize ⟨owner, query⟩ request.canonical)
  | queryEnd {c : Connection} {failed : Bool} {look : Looks} {t : QueryToken} :
      (s.states c).query = some t →
      Calls ownerOf s (.queryEnd c failed look) look (.complete ⟨ownerOf c, some t⟩ failed)
  | refresh {owner : Owner} {look : Looks} :
      Calls ownerOf s (.refresh owner look) look (.refresh owner)
  | remove {owner : Owner} {look : Looks} : Calls ownerOf s (.remove owner) look (.remove owner)

theorem canonicalizePath_entries (s : System) (look : Looks) (owner : Owner)
    (request : Request) :
    (s.canonicalizePath look owner request).1.entries = s.entries ∨
      ∃ query look', (s.canonicalizePath look owner request).1.entries =
        Registry.step look' s.entries (.canonicalize ⟨owner, query⟩ request.canonical) := by
  unfold canonicalizePath
  split
  · exact .inl rfl
  · split
    · exact .inl rfl
    · refine .inr ⟨(s.queryOf request.context).2, fun n ↦ look (s.entries.length + n), ?_⟩
      dsimp only
      rw [Registry.step, queryOf_entries]

/-- An event leaves the registry alone or makes one call on it. -/
theorem step_entries (ownerOf : Connection → Owner) (s : System) (ev : Event) :
    (step ownerOf s ev).entries = s.entries ∨
      ∃ look call, Calls ownerOf s ev look call ∧
        (step ownerOf s ev).entries = Registry.step look s.entries call := by
  cases ev with
  | queryBegin c => exact .inl rfl
  | request owner request look =>
    simp only [step]
    split
    · rcases canonicalizePath_entries s look owner request with h | ⟨query, look', h⟩
      · exact .inl h
      · exact .inr ⟨look', _, .request, h⟩
    · exact .inl rfl
  | queryEnd c failed look =>
    simp only [step, queryEnd]
    split
    case h_1 => exact .inl rfl
    case h_2 t ht =>
      split
      · exact .inr ⟨look, _, .queryEnd ht, rfl⟩
      · exact .inl rfl
  | refresh owner look =>
    simp only [step]
    split
    · exact .inr ⟨look, _, .refresh, rfl⟩
    · exact .inl rfl
  | remove owner => exact .inr ⟨fun _ _ ↦ .failed .noent, _, .remove, rfl⟩

end System

namespace Registry

variable {look : Looks} {entries entries' : List Entry} {call : Call} {r : PendingReference}
  {path : Path} {o : Owner}

def Held (entries : List Entry) (path : Path) (r : PendingReference) : Prop :=
  ∃ e ∈ entries, e.path = path ∧ e.holds r

def Owned (entries : List Entry) (path : Path) (o : Owner) : Prop :=
  ∃ e ∈ entries, e.path = path ∧ o ∈ e.owners

structure Sound (entries : List Entry) : Prop where
  wellFormed : ∀ e ∈ entries, e.WellFormed
  used : ∀ e ∈ entries, e.isUnused = false
  paths : (entries.map Entry.path).Nodup

theorem Sound.nil : Sound [] := ⟨by simp, by simp, List.nodup_nil⟩

theorem mem_removeUnused {e : Entry} :
    e ∈ removeUnused entries ↔ e ∈ entries ∧ e.isUnused = false := by
  simp [removeUnused]

theorem effects_wellFormed (h : List.Forall₂ (Effects look call) entries entries')
    (hs : ∀ e ∈ entries, e.WellFormed) : ∀ e ∈ entries', e.WellFormed := by
  intro e' he'
  obtain ⟨e, he, heff⟩ := Pointwise.exists_left h he'
  exact heff.wellFormed (hs e he)

theorem wellFormed_new {seen : Identity} (hk : seen.kind ≠ .other) :
    ((⟨path, seen, [], []⟩ : Entry).addReference r).WellFormed := by
  have hempty : (⟨path, seen, [], []⟩ : Entry).WellFormed := ⟨fun _ ↦ rfl, fun _ ↦ rfl, hk⟩
  have heff : Effect (fun _ _ ↦ .failed .noent) (.canonicalize r path) ⟨path, seen, [], []⟩
      ((⟨path, seen, [], []⟩ : Entry).addReference r) := .refer
  exact heff.wellFormed hempty

theorem effects_used (h : List.Forall₂ (Effects look call) entries entries')
    (hremove : ∀ owner, call ≠ .remove owner)
    (hcomplete : ∀ reference failed, call ≠ .complete reference failed)
    (hs : ∀ e ∈ entries, e.isUnused = false) : ∀ e ∈ entries', e.isUnused = false := by
  intro e' he'
  obtain ⟨e, he, heff⟩ := Pointwise.exists_left h he'
  obtain ⟨r, hr⟩ := Entry.exists_holds (hs e he)
  have hends : ¬ Ends look e.path r call := by
    rintro (h | ⟨h, -⟩)
    exacts [hremove _ h, hcomplete _ _ h]
  exact (heff.holds hr hends).used

theorem effects_paths (h : List.Forall₂ (Effects look call) entries entries') :
    entries'.map Entry.path = entries.map Entry.path :=
  (Pointwise.map_eq (fun _ _ heff ↦ heff.path_eq.symm) h).symm

theorem paths_nodup_added (h : List.Forall₂ (Effects look call) entries entries')
    (hs : (entries.map Entry.path).Nodup) (hnew : ∀ e ∈ entries', e.path ≠ path)
    {new : Entry} (hpath : new.path = path) : ((entries' ++ [new]).map Entry.path).Nodup := by
  rw [List.map_append, List.nodup_append, effects_paths h]
  refine ⟨hs, List.nodup_singleton _, fun a ha b hb hab ↦ ?_⟩
  rw [← effects_paths h] at ha
  obtain ⟨e, he, rfl⟩ := List.mem_map.mp ha
  rw [List.map_singleton, List.mem_singleton, hpath] at hb
  exact hnew e he (hab.trans hb)

theorem Sound.step (h : Sound entries) (look : Looks) (call : Call) :
    Sound (Registry.step look entries call) := by
  have hout := step_outcome look entries call
  generalize Registry.step look entries call = entries' at hout
  rcases hout with ⟨hremove, hcomplete, heff⟩ | ⟨heff, hnew, hk⟩ | heff
  · exact ⟨effects_wellFormed heff h.wellFormed, effects_used heff hremove hcomplete h.used,
      effects_paths heff ▸ h.paths⟩
  · refine ⟨fun e he ↦ ?_, fun e he ↦ ?_,
      paths_nodup_added heff h.paths (fun e he ↦ (hnew e he).1) Entry.addReference_path⟩
    all_goals rcases List.mem_append.mp he with he | he
    · exact effects_wellFormed heff h.wellFormed e he
    · rw [List.mem_singleton.mp he]
      exact wellFormed_new hk
    · exact effects_used heff (by simp) (by simp) h.used e he
    · rw [List.mem_singleton.mp he]
      exact Entry.holds_addReference.used
  · exact ⟨fun e he ↦ effects_wellFormed heff h.wellFormed e (mem_removeUnused.mp he).1,
      fun e he ↦ (mem_removeUnused.mp he).2,
      (effects_paths heff ▸ h.paths).sublist (List.filter_sublist.map Entry.path)⟩

theorem effects_held (h : List.Forall₂ (Effects look call) entries entries')
    (hheld : Held entries path r) (hends : ¬ Ends look path r call) : Held entries' path r := by
  obtain ⟨e, he, rfl, hr⟩ := hheld
  obtain ⟨e', he', heff⟩ := Pointwise.exists_right h he
  exact ⟨e', he', heff.path_eq, heff.holds hr hends⟩

theorem Held.removeUnused (h : Held entries path r) : Held (removeUnused entries) path r := by
  obtain ⟨e, he, hp, hr⟩ := h
  exact ⟨e, mem_removeUnused.mpr ⟨he, hr.used⟩, hp, hr⟩

theorem Held.append (h : Held entries path r) (es : List Entry) :
    Held (entries ++ es) path r := by
  obtain ⟨e, he, hp, hr⟩ := h
  exact ⟨e, List.mem_append_left es he, hp, hr⟩

/-- A held reference stays held through every call that does not end it. -/
theorem Held.step (h : Held entries path r) (hends : ¬ Ends look path r call) :
    Held (Registry.step look entries call) path r := by
  have hout := step_outcome look entries call
  generalize Registry.step look entries call = entries' at hout
  rcases hout with ⟨-, -, heff⟩ | ⟨heff, -, -⟩ | heff
  · exact effects_held heff h hends
  · exact (effects_held heff h hends).append _
  · exact (effects_held heff h hends).removeUnused

/-- An owner stays one of its files' owners until it is removed. -/
theorem Owned.step (h : Owned entries path o) (hcall : call ≠ .remove o) :
    Owned (Registry.step look entries call) path o := by
  obtain ⟨e, he, rfl, ho⟩ := h
  have hkept {entries' : List Entry} (heff : List.Forall₂ (Effects look call) entries entries') :
      ∃ e' ∈ entries', e'.path = e.path ∧ o ∈ e'.owners := by
    obtain ⟨e', he', heff⟩ := Pointwise.exists_right heff he
    exact ⟨e', he', heff.path_eq, heff.owns ho hcall⟩
  have hout := step_outcome look entries call
  generalize Registry.step look entries call = entries' at hout
  rcases hout with ⟨-, -, heff⟩ | ⟨heff, -, -⟩ | heff
  · exact hkept heff
  · obtain ⟨e', he', h⟩ := hkept heff
    exact ⟨e', List.mem_append_left _ he', h⟩
  · obtain ⟨e', he', hp, ho'⟩ := hkept heff
    have hused : e'.isUnused = false := Entry.holds.used (r := ⟨o, none⟩) (.inr ho')
    exact ⟨e', mem_removeUnused.mpr ⟨he', hused⟩, hp, ho'⟩

end Registry

namespace System

variable {ownerOf : Connection → Owner} {s : System} {c c' : Connection} {ev : Event}
  {look : Looks} {owner : Owner} {t : QueryToken}

/-- Tokens are fresh, so no two running queries share one. -/
structure Fresh (s : System) : Prop where
  issued : ∀ c t, (s.states c).query = some t → t < s.next
  apart : ∀ c c' t, (s.states c).query = some t → (s.states c').query = some t → c = c'

theorem Fresh.clear (h : Fresh s) (c : Connection) (active : Bool) :
    Fresh (s.setState c ⟨active, none⟩) := by
  have hquery (d : Connection) (t : QueryToken)
      (hd : ((s.setState c ⟨active, none⟩).states d).query = some t) :
      (s.states d).query = some t := by
    by_cases hdc : d = c
    · subst hdc
      simp [setState] at hd
    · simpa [setState, Function.update_of_ne hdc] using hd
  exact ⟨fun d t hd ↦ h.issued d t (hquery d t hd),
    fun d d' t hd hd' ↦ h.apart d d' t (hquery d t hd) (hquery d' t hd')⟩

theorem Fresh.of_eq {s' : System} (h : Fresh s) (hstates : s'.states = s.states)
    (hnext : s'.next = s.next) : Fresh s' :=
  ⟨by rw [hstates, hnext]; exact h.issued, by rw [hstates]; exact h.apart⟩

theorem Fresh.activeQuery (h : Fresh s) (c : Connection) : Fresh (s.activeQuery c).1 := by
  unfold System.activeQuery
  split
  case isFalse => exact h
  case isTrue =>
    have hquery (d : Connection) (t : QueryToken)
        (hd : ((s.setState c ⟨true, some s.next⟩).states d).query = some t) :
        d = c ∧ t = s.next ∨ (s.states d).query = some t := by
      by_cases hdc : d = c
      · subst hdc
        left
        simpa [setState, eq_comm] using hd
      · right
        simpa [setState, Function.update_of_ne hdc] using hd
    refine ⟨fun d t hd ↦ ?_, fun d d' t hd hd' ↦ ?_⟩
    · rcases hquery d t hd with ⟨-, rfl⟩ | hd
      · exact Nat.lt_succ_self _
      · exact Nat.lt_succ_of_lt (h.issued d t hd)
    · rcases hquery d t hd with ⟨hdc, ht⟩ | hold
      all_goals rcases hquery d' t hd' with ⟨hdc', ht'⟩ | hold'
      · rw [hdc, hdc']
      · exact absurd (ht ▸ h.issued d' t hold') (Nat.lt_irrefl _)
      · exact absurd (ht' ▸ h.issued d t hold) (Nat.lt_irrefl _)
      · exact h.apart d d' t hold hold'

theorem Fresh.canonicalizePath (h : Fresh s) (look : Looks) (owner : Owner) (request : Request) :
    Fresh (s.canonicalizePath look owner request).1 := by
  have hasked : Fresh (s.queryOf request.context).1 := by
    rcases request.context with _ | c
    · exact h
    · exact h.activeQuery c
  unfold System.canonicalizePath
  split
  · exact h
  · split
    · exact h
    · exact hasked.of_eq rfl rfl

theorem Fresh.step (h : Fresh s) (ownerOf : Connection → Owner) (ev : Event) :
    Fresh (System.step ownerOf s ev) := by
  cases ev with
  | queryBegin c => exact h.clear c true
  | request owner request look =>
    simp only [System.step]
    split
    · exact h.canonicalizePath look owner request
    · exact h
  | queryEnd c failed look =>
    have hended : Fresh (s.setState c ⟨false, none⟩) := h.clear c false
    simp only [System.step, System.queryEnd]
    split
    · exact hended
    · split
      · exact hended.of_eq rfl rfl
      · exact hended
  | refresh owner look =>
    simp only [System.step]
    split
    · exact h.of_eq rfl rfl
    · exact h
  | remove owner => exact h.of_eq rfl rfl

structure Invariant (s : System) : Prop where
  sound : Sound s.entries
  fresh : Fresh s

theorem invariant_run (ownerOf : Connection → Owner) (events : List Event) :
    Invariant (Runs.run (step ownerOf) initial events) := by
  refine Runs.invariant ?_ ?_ events
  · intro s ev h
    refine ⟨?_, h.fresh.step ownerOf ev⟩
    rcases step_entries ownerOf s ev with heq | ⟨look, call, -, heq⟩
    · rw [heq]
      exact h.sound
    · rw [heq]
      exact h.sound.step look call
  · refine ⟨Sound.nil, ?_⟩
    exact ⟨by simp [initial], by simp [initial]⟩

def Releases (ownerOf : Connection → Owner) (s : System) (path : Path) (r : PendingReference) :
    Event → Prop
  | .remove owner => owner = r.owner
  | .queryEnd c failed look =>
    failed ∧ r.owner = ownerOf c ∧ (s.states c).query ≠ none ∧ (s.states c).query = r.query ∧
      ∃ n seen, identify (look n path) = .ok seen ∧ seen.kind = .missing
  | _ => False

theorem held_step {path : Path} {r : PendingReference} (h : Held s.entries path r)
    (hrel : ¬ Releases ownerOf s path r ev) : Held (step ownerOf s ev).entries path r := by
  rcases step_entries ownerOf s ev with heq | ⟨look, call, hcall, heq⟩
  · rwa [heq]
  · rw [heq]
    refine h.step fun hends ↦ hrel ?_
    rcases hends with rfl | ⟨rfl, hseen⟩
    · cases hcall
      exact rfl
    · cases hcall with
      | queryEnd ht => exact ⟨rfl, rfl, by simp [ht], ht, hseen⟩

theorem owned_step {path : Path} {o : Owner} (h : Owned s.entries path o)
    (hev : ev ≠ .remove o) : Owned (step ownerOf s ev).entries path o := by
  rcases step_entries ownerOf s ev with heq | ⟨look, call, hcall, heq⟩
  · rwa [heq]
  · rw [heq]
    refine h.step fun hends ↦ hev ?_
    subst hends
    cases hcall
    rfl

/-- References over every interleaving of queries, requests and removals: who
may hold what, what alone ends a held reference, and that no entry stays
without one. -/
theorem references_run (ownerOf : Connection → Owner) (events : List Event) :
    let s := Runs.run (step ownerOf) initial events
    (∀ e ∈ s.entries, (e.identity.kind = .regular → e.pending = []) ∧
      (e.identity.kind = .missing → e.owners = [])) ∧
    (∀ e ∈ s.entries, e.owners ≠ [] ∨ e.pending ≠ []) ∧
    (∀ path r ev, Held s.entries path r → ¬ Held (step ownerOf s ev).entries path r →
      Releases ownerOf s path r ev) ∧
    (∀ path o ev, Owned s.entries path o → ¬ Owned (step ownerOf s ev).entries path o →
      ev = .remove o) ∧
    (∀ path r c c' failed look, c ≠ c' → (s.states c').query ≠ none →
      r.query = (s.states c').query → Held s.entries path r →
      Held (step ownerOf s (.queryEnd c failed look)).entries path r) := by
  intro s
  have hinv : Invariant s := invariant_run ownerOf events
  refine ⟨fun e he ↦ ?_, fun e he ↦ ?_, fun path r ev hheld hlost ↦ ?_,
    fun path o ev hown hlost ↦ ?_, fun path r c c' failed look hne hquery hr hheld ↦ ?_⟩
  · exact ⟨(hinv.sound.wellFormed e he).regular, (hinv.sound.wellFormed e he).missing⟩
  · have hused := hinv.sound.used e he
    rw [Entry.isUnused, Bool.and_eq_false_iff] at hused
    simpa using hused
  · exact by_contra fun hrel ↦ hlost (held_step hheld hrel)
  · exact by_contra fun hev ↦ hlost (owned_step hown hev)
  · refine held_step hheld ?_
    rintro ⟨-, -, -, hsame, -⟩
    obtain ⟨t, ht⟩ := Option.ne_none_iff_exists'.mp hquery
    exact hne (hinv.fresh.apart c c' t (by rw [hsame, hr, ht]) ht)

end System

end PdoDuckdb.Filesystem
