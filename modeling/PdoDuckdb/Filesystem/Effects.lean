import PdoDuckdb.Filesystem.Registry
import PdoDuckdb.Library.Pointwise
import Mathlib.Logic.Relation

namespace PdoDuckdb.Filesystem

open Registry Library

namespace Entry

variable {e : Entry} {o o' : Owner} {reference r : PendingReference} {seen : Identity}

@[simp] theorem addOwner_path : (e.addOwner o).path = e.path := by
  unfold addOwner
  split <;> rfl

@[simp] theorem addOwner_identity : (e.addOwner o).identity = e.identity := by
  unfold addOwner
  split <;> rfl

@[simp] theorem addOwner_pending : (e.addOwner o).pending = e.pending := by
  unfold addOwner
  split <;> rfl

@[simp] theorem mem_addOwner : o' ∈ (e.addOwner o).owners ↔ o' ∈ e.owners ∨ o' = o := by
  unfold addOwner
  split
  case isTrue h =>
    constructor
    · exact Or.inl
    · rintro (h' | rfl)
      exacts [h', h]
  case isFalse h => simp

theorem foldl_addOwner_path (references : List PendingReference) :
    (references.foldl (fun e r ↦ e.addOwner r.owner) e).path = e.path := by
  induction references generalizing e with
  | nil => rfl
  | cons r references ih => rw [List.foldl_cons, ih, addOwner_path]

theorem mem_foldl_addOwner (references : List PendingReference) :
    o ∈ (references.foldl (fun e r ↦ e.addOwner r.owner) e).owners ↔
      o ∈ e.owners ∨ ∃ r ∈ references, r.owner = o := by
  induction references generalizing e with
  | nil => simp
  | cons r references ih =>
    rw [List.foldl_cons, ih, mem_addOwner, or_assoc]
    simp [eq_comm]

@[simp] theorem capture_path : (e.capture seen).path = e.path := foldl_addOwner_path e.pending

@[simp] theorem capture_identity : (e.capture seen).identity = seen := rfl

@[simp] theorem capture_pending : (e.capture seen).pending = [] := rfl

@[simp] theorem mem_capture :
    o ∈ (e.capture seen).owners ↔ o ∈ e.owners ∨ ∃ r ∈ e.pending, r.owner = o :=
  mem_foldl_addOwner e.pending

theorem addReference_regular (h : e.identity.kind = .regular) :
    e.addReference reference = e.addOwner reference.owner := if_pos h

@[simp] theorem addReference_path : (e.addReference reference).path = e.path := by
  unfold addReference
  split_ifs <;> simp

@[simp] theorem addReference_identity : (e.addReference reference).identity = e.identity := by
  unfold addReference
  split_ifs <;> simp

theorem addReference_owners (h : e.identity.kind ≠ .regular) :
    (e.addReference reference).owners = e.owners := by
  rw [addReference, if_neg h]
  split <;> rfl

theorem mem_addReference_pending (h : e.identity.kind ≠ .regular) :
    r ∈ (e.addReference reference).pending ↔ r ∈ e.pending ∨ r = reference := by
  rw [addReference, if_neg h]
  split
  case isTrue hmem =>
    constructor
    · exact Or.inl
    · rintro (h' | rfl)
      exacts [h', hmem]
  case isFalse hmem => simp

/-- A reference is held by the entry while it is pending there, and once its
owner is an owner of the file. -/
def holds (e : Entry) (r : PendingReference) : Prop := r ∈ e.pending ∨ r.owner ∈ e.owners

theorem holds.used (h : e.holds r) : e.isUnused = false := by
  rw [Bool.eq_false_iff]
  intro hu
  simp only [isUnused, Bool.and_eq_true, List.isEmpty_iff] at hu
  rcases h with h | h
  · exact List.not_mem_nil (hu.2 ▸ h)
  · exact List.not_mem_nil (hu.1 ▸ h)

theorem exists_holds (h : e.isUnused = false) : ∃ r, e.holds r := by
  rcases hp : e.pending with _ | ⟨r, references⟩
  · rcases ho : e.owners with _ | ⟨o, owners⟩
    · simp [isUnused, hp, ho] at h
    · exact ⟨⟨o, none⟩, .inr (by simp [ho])⟩
  · exact ⟨r, .inl (by simp [hp])⟩

theorem holds_addReference : (e.addReference reference).holds reference := by
  by_cases h : e.identity.kind = .regular
  · exact .inr (by simp [addReference_regular h])
  · exact .inl ((mem_addReference_pending h).mpr (.inr rfl))

/-- Owners belong to sampled files, pending references to missing ones. -/
structure WellFormed (e : Entry) : Prop where
  regular : e.identity.kind = .regular → e.pending = []
  missing : e.identity.kind = .missing → e.owners = []
  known : e.identity.kind ≠ .other

end Entry

inductive Effect (look : Looks) : Call → Entry → Entry → Prop
  | capture {c : Call} {e : Entry} {n : ℕ} {seen : Identity} :
      e.identity.kind = .missing ∨ e.pending ≠ [] → identify (look n e.path) = .ok seen →
      seen.kind = .regular → Effect look c e (e.capture seen)
  | refer {e : Entry} {reference : PendingReference} {path : Path} :
      Effect look (.canonicalize reference path) e (e.addReference reference)
  | forget {e : Entry} {owner : Owner} : Effect look (.remove owner) e (e.forget owner)
  | retract {e : Entry} {reference : PendingReference} {n : ℕ} {seen : Identity} :
      identify (look n e.path) = .ok seen → seen.kind = .missing →
      Effect look (.complete reference true) e (e.retract reference)

/-- The calls that end a held reference: its owner's removal, and the failed
completion of its own query that sees the file missing. -/
def Ends (look : Looks) (path : Path) (r : PendingReference) (c : Call) : Prop :=
  c = .remove r.owner ∨
    c = .complete r true ∧ ∃ n seen, identify (look n path) = .ok seen ∧ seen.kind = .missing

namespace Effect

variable {look : Looks} {c : Call} {e e' : Entry} {r : PendingReference} {o : Owner}

theorem path_eq (h : Effect look c e e') : e'.path = e.path := by
  cases h with
  | capture => exact Entry.capture_path
  | refer => exact Entry.addReference_path
  | forget => rfl
  | retract => rfl

theorem wellFormed (h : Effect look c e e') (he : e.WellFormed) : e'.WellFormed := by
  cases h with
  | capture _ _ hseen =>
    refine ⟨fun _ ↦ rfl, fun hk ↦ ?_, fun hk ↦ ?_⟩
    all_goals exact absurd (hseen.symm.trans hk) (by decide)
  | @refer _ reference path =>
    refine ⟨fun hk ↦ ?_, fun hk ↦ ?_, ?_⟩
    · rw [Entry.addReference_identity] at hk
      rw [Entry.addReference_regular hk, Entry.addOwner_pending, he.regular hk]
    · rw [Entry.addReference_identity] at hk
      rw [Entry.addReference_owners (by rw [hk]; decide), he.missing hk]
    · rw [Entry.addReference_identity]
      exact he.known
  | forget =>
    refine ⟨fun hk ↦ ?_, fun hk ↦ ?_, he.known⟩
    · simp [Entry.forget, he.regular hk]
    · simp [Entry.forget, he.missing hk]
  | retract =>
    refine ⟨fun hk ↦ ?_, fun hk ↦ he.missing hk, he.known⟩
    simp [Entry.retract, he.regular hk]

theorem holds (h : Effect look c e e') (hr : e.holds r) (hc : ¬ Ends look e.path r c) :
    e'.holds r := by
  cases h with
  | capture =>
    right
    rw [Entry.mem_capture]
    rcases hr with hr | hr
    · exact .inr ⟨r, hr, rfl⟩
    · exact .inl hr
  | @refer _ reference path =>
    by_cases hk : e.identity.kind = .regular
    · rw [Entry.addReference_regular hk]
      rcases hr with hr | hr
      · exact .inl (by rwa [Entry.addOwner_pending])
      · exact .inr (Entry.mem_addOwner.mpr (.inl hr))
    · rcases hr with hr | hr
      · exact .inl ((Entry.mem_addReference_pending hk).mpr (.inl hr))
      · exact .inr (by rwa [Entry.addReference_owners hk])
  | @forget _ owner =>
    have hne : r.owner ≠ owner := fun heq ↦ hc (.inl (by rw [heq]))
    rcases hr with hr | hr
    · exact .inl (by simp [Entry.forget, hr, hne])
    · exact .inr (by simp [Entry.forget, hr, hne])
  | @retract _ reference n seen hlook hseen =>
    have hne : r ≠ reference := fun heq ↦ hc (.inr ⟨by rw [heq], n, seen, hlook, hseen⟩)
    rcases hr with hr | hr
    · exact .inl (by simp [Entry.retract, hr, hne])
    · exact .inr hr

theorem owns (h : Effect look c e e') (ho : o ∈ e.owners) (hc : c ≠ .remove o) :
    o ∈ e'.owners := by
  cases h with
  | capture => exact Entry.mem_capture.mpr (.inl ho)
  | @refer _ reference path =>
    by_cases hk : e.identity.kind = .regular
    · rw [Entry.addReference_regular hk]
      exact Entry.mem_addOwner.mpr (.inl ho)
    · rwa [Entry.addReference_owners hk]
  | @forget _ owner =>
    have hne : o ≠ owner := fun heq ↦ hc (by rw [heq])
    simp [Entry.forget, ho, hne]
  | retract => exact ho

end Effect

abbrev Effects (look : Looks) (c : Call) : Entry → Entry → Prop :=
  Relation.ReflTransGen (Effect look c)

namespace Effects

variable {look : Looks} {c : Call} {e e' : Entry} {r : PendingReference} {o : Owner}

theorem path_eq (h : Effects look c e e') : e'.path = e.path := by
  induction h with
  | refl => rfl
  | tail _ h ih => rw [h.path_eq, ih]

theorem wellFormed (h : Effects look c e e') (he : e.WellFormed) : e'.WellFormed := by
  induction h with
  | refl => exact he
  | tail _ h ih => exact h.wellFormed ih

theorem holds (h : Effects look c e e') (hr : e.holds r) (hc : ¬ Ends look e.path r c) :
    e'.holds r := by
  induction h with
  | refl => exact hr
  | tail hs h ih => exact h.holds ih (by rwa [path_eq hs])

theorem owns (h : Effects look c e e') (ho : o ∈ e.owners) (hc : c ≠ .remove o) :
    o ∈ e'.owners := by
  induction h with
  | refl => exact ho
  | tail _ h ih => exact h.owns ih hc

theorem nil (entries : List Entry) : List.Forall₂ (Effects look c) entries entries :=
  List.forall₂_same.mpr fun _ _ ↦ .refl

end Effects

namespace Registry

variable {look : Looks} {c : Call} {owner : Option Owner} {n : ℕ} {path : Path} {seen : Identity}
  {reference : PendingReference} {failed : Bool} {entries entries' : List Entry}

theorem capturePendingFrom_effects :
    List.Forall₂ (Effects look c) entries (capturePendingFrom look owner n entries).1 := by
  induction entries generalizing n with
  | nil => exact .nil
  | cons e es ih =>
    unfold capturePendingFrom
    split
    case isFalse => exact .cons .refl ih
    case isTrue h =>
      split
      case h_1 => exact Effects.nil (e :: es)
      case h_2 seen hseen =>
        refine .cons ?_ ih
        split
        case isTrue hk => exact .single (.capture (.inl h.1) hseen hk)
        case isFalse => exact .refl

/-- `Canonicalize` answers from one entry, to which it adds its reference. -/
theorem lookup_updates {fs : Path → Stat} {found : List Entry × Except String Path}
    (h : lookup fs path seen reference entries = some found) :
    List.Forall₂ (fun e e' ↦ e' = e ∨ e' = e.addReference reference) entries found.1 := by
  have hsame (es : List Entry) :
      List.Forall₂ (fun e e' ↦ e' = e ∨ e' = e.addReference reference) es es :=
    List.forall₂_same.mpr fun _ _ ↦ .inl rfl
  induction entries generalizing found with
  | nil => cases h
  | cons e es ih =>
    unfold lookup at h
    split at h
    case isTrue =>
      split at h
      · obtain rfl := Option.some.inj h
        exact hsame (e :: es)
      · obtain rfl := Option.some.inj h
        exact .cons (.inr rfl) (hsame es)
    case isFalse =>
      obtain ⟨found, hfound, rfl⟩ := Option.map_eq_some_iff.mp h
      exact .cons (.inl rfl) (ih hfound)

theorem lookup_effects {fs : Path → Stat} {found : List Entry × Except String Path}
    (h : lookup fs path seen reference entries = some found) :
    List.Forall₂ (Effects look (.canonicalize reference path)) entries found.1 := by
  refine (lookup_updates h).imp fun e e' he ↦ ?_
  rcases he with rfl | rfl
  · exact .refl
  · exact .single .refer

theorem completeFrom_effects :
    List.Forall₂ (Effects look (.complete reference failed)) entries
      (completeFrom look reference failed n entries) := by
  induction entries generalizing n with
  | nil => exact .nil
  | cons e es ih =>
    refine .cons ?_ ih
    unfold completeEntry
    split_ifs with hmem
    · split
      case h_1 => exact .refl
      case h_2 seen hseen =>
        split_ifs with hk hk'
        · exact .single (.capture (.inr (List.ne_nil_of_mem hmem)) hseen hk)
        · obtain ⟨hk', rfl⟩ := hk'
          exact .single (.retract hseen hk')
        · exact .refl
    · exact .refl

/-- What one call does to the entries: effects on the entries there were, and
then nothing, a new entry, or the removal of the unused ones. -/
inductive Outcome (look : Looks) (entries : List Entry) : Call → List Entry → Prop
  | changed {c : Call} {entries' : List Entry} :
      (∀ owner, c ≠ .remove owner) → (∀ reference failed, c ≠ .complete reference failed) →
      List.Forall₂ (Effects look c) entries entries' → Outcome look entries c entries'
  | added {reference : PendingReference} {path : Path} {seen : Identity} {entries' : List Entry} :
      List.Forall₂ (Effects look (.canonicalize reference path)) entries entries' →
      (∀ e ∈ entries', e.path ≠ path ∧ ¬ e.identity.matchesWith seen) → seen.kind ≠ .other →
      Outcome look entries (.canonicalize reference path)
        (entries' ++ [(⟨path, seen, [], []⟩ : Entry).addReference reference])
  | swept {c : Call} {entries' : List Entry} :
      List.Forall₂ (Effects look c) entries entries' →
      Outcome look entries c (removeUnused entries')

theorem lookup_eq_none {fs : Path → Stat} :
    lookup fs path seen reference entries = none ↔
      ∀ e ∈ entries, e.path ≠ path ∧ ¬ e.identity.matchesWith seen := by
  induction entries with
  | nil => simp [lookup]
  | cons e es ih =>
    unfold lookup
    split_ifs with h
    · have hne : ¬ (e.path ≠ path ∧ ¬ e.identity.matchesWith seen) := by
        rwa [← not_or, not_not]
      simp only [List.forall_mem_cons, hne, false_and, iff_false]
      split <;> exact Option.some_ne_none _
    · rw [Option.map_eq_none_iff, ih, List.forall_mem_cons]
      exact (and_iff_right (not_or.mp h)).symm

/-- A call to `Canonicalize`: pending files are captured, then the call stops
there, or answers from an entry, or registers the path. -/
theorem canonicalize_cases (look : Looks) (reference : PendingReference) (path : Path)
    (entries : List Entry) :
    (canonicalize look reference path entries).1 = (capturePending look none entries).1 ∨
    (∃ fs seen found, lookup fs path seen reference (capturePending look none entries).1 =
        some found ∧ (canonicalize look reference path entries).1 = found.1) ∨
    ∃ n seen, identify (look n path) = .ok seen ∧ seen.kind ≠ .other ∧
      (∀ e ∈ (capturePending look none entries).1,
        e.path ≠ path ∧ ¬ e.identity.matchesWith seen) ∧
      (canonicalize look reference path entries).1 = (capturePending look none entries).1 ++
        [(⟨path, seen, [], []⟩ : Entry).addReference reference] := by
  unfold canonicalize
  split
  case h_1 heq => exact .inl (by rw [heq])
  case h_2 captured heq =>
    rw [heq]
    split
    case h_1 => exact .inl rfl
    case h_2 seen hseen =>
      split
      case h_1 found hfound => exact .inr (.inl ⟨_, _, _, hfound, rfl⟩)
      case h_2 hnone =>
        split_ifs with hk
        · exact .inl rfl
        · exact .inr (.inr ⟨_, seen, hseen, hk, lookup_eq_none.mp hnone, rfl⟩)

theorem step_outcome (look : Looks) (entries : List Entry) (c : Call) :
    Outcome look entries c (step look entries c) := by
  cases c with
  | validate path => exact .changed (by simp) (by simp) (Effects.nil entries)
  | refresh owner => exact .changed (by simp) (by simp) capturePendingFrom_effects
  | remove owner =>
    refine .swept ?_
    rw [List.forall₂_map_right_iff]
    exact List.forall₂_same.mpr fun _ _ ↦ .single .forget
  | complete reference failed => exact .swept completeFrom_effects
  | canonicalize reference path =>
    have hcaptured : List.Forall₂ (Effects look (.canonicalize reference path)) entries
        (capturePending look none entries).1 := capturePendingFrom_effects
    rcases canonicalize_cases look reference path entries with
      heq | ⟨fs, seen, found, hfound, heq⟩ | ⟨n, seen, -, hk, hne, heq⟩
    · exact .changed (by simp) (by simp) (by rw [step, heq]; exact hcaptured)
    · refine .changed (by simp) (by simp) ?_
      rw [step, heq]
      have hreferred : List.Forall₂ (Effects look (.canonicalize reference path))
          (capturePending look none entries).1 found.1 := lookup_effects hfound
      refine Pointwise.comp ?_ hcaptured hreferred
      intro _ _ _ h h'
      exact Relation.ReflTransGen.trans h h'
    · rw [step, heq]
      exact .added hcaptured hne hk

end Registry

end PdoDuckdb.Filesystem
