import PdoDuckdb.Filesystem.References
import Mathlib.Data.List.Pairwise

namespace PdoDuckdb.Filesystem

open Registry Library

/-- One call on the registry, under the file system as it is then. -/
structure Moment where
  fs : Path → Stat
  call : Call

namespace Registry

variable {fs : Path → Stat} {look : Looks} {entries entries' : List Entry} {call : Call}
  {owner : Option Owner} {n : ℕ} {e f : Entry} {path : Path} {seen : Identity}
  {reference : PendingReference} {failed : Bool}

def stepAt (entries : List Entry) (m : Moment) : List Entry :=
  step (fun _ ↦ m.fs) entries m.call

def Distinct (entries : List Entry) : Prop :=
  entries.Pairwise fun e f ↦ e.path ≠ f.path ∧ ¬ e.identity.matchesWith f.identity

instance (entries : List Entry) : Decidable (Distinct entries) := by
  unfold Distinct
  infer_instance

def readable (fs : Path → Stat) (path : Path) : Bool := (identify (fs path)).isOk

/-- The entries that `CapturePending` gets to sample: a failed inspection ends
its loop. -/
def reachedPending (fs : Path → Stat) (owner : Option Owner) (entries : List Entry) : List Entry :=
  (entries.takeWhile fun e ↦ !decide (sampled owner e) || readable fs e.path).filter
    fun e ↦ decide (sampled owner e)

/-- The entries whose files a call samples. -/
def reached (fs : Path → Stat) (entries : List Entry) : Call → List Entry
  | .canonicalize _ _ => reachedPending fs none entries
  | .refresh owner => reachedPending fs (some owner) entries
  | .complete reference _ => entries.filter fun e ↦ reference ∈ e.pending
  | .validate _ => []
  | .remove _ => []

/-- The file of every entry that a call captures belongs to no other entry,
registered or captured by the same call. -/
def Apart (fs : Path → Stat) (entries : List Entry) (call : Call) : Prop :=
  ∀ e ∈ reached fs entries call, ∀ f ∈ entries, f.path ≠ e.path →
    ∀ seen, identify (fs e.path) = .ok seen →
      ¬ f.identity.matchesWith seen ∧
      (f ∈ reached fs entries call → ∀ seen', identify (fs f.path) = .ok seen' →
        ¬ seen'.matchesWith seen)

/-- `Capture`, when the file of the entry is seen. -/
def sampleEntry (fs : Path → Stat) (e : Entry) : Entry :=
  match identify (fs e.path) with
  | .error _ => e
  | .ok seen => if seen.kind = .regular then e.capture seen else e

def sampledIdentity (fs : Path → Stat) (e : Entry) : Identity :=
  match identify (fs e.path) with
  | .error _ => e.identity
  | .ok seen => if seen.kind = .regular then seen else e.identity

def identityAfter (fs : Path → Stat) (reached : List Entry) (e : Entry) : Identity :=
  if e ∈ reached then sampledIdentity fs e else e.identity

def key (e : Entry) : Path × Identity := (e.path, e.identity)

def keyAfter (fs : Path → Stat) (reached : List Entry) (e : Entry) : Path × Identity :=
  (e.path, identityAfter fs reached e)

def KeysDistinct (keys : List (Path × Identity)) : Prop :=
  keys.Pairwise fun a b ↦ a.1 ≠ b.1 ∧ ¬ a.2.matchesWith b.2

theorem keysDistinct_map : KeysDistinct (entries.map key) ↔ Distinct entries := List.pairwise_map

theorem KeysDistinct.apart {keys : List (Path × Identity)} (h : KeysDistinct keys)
    {a b : Path × Identity} (ha : a ∈ keys) (hb : b ∈ keys) (hne : a ≠ b) :
    ¬ a.2.matchesWith b.2 := by
  have hsymm : Std.Symm fun a b : Path × Identity ↦ a.1 ≠ b.1 ∧ ¬ a.2.matchesWith b.2 :=
    ⟨fun _ _ hab ↦ ⟨hab.1.symm, fun hm ↦ hab.2 (Identity.matchesWith_comm.mp hm)⟩⟩
  exact (List.Pairwise.forall h ha hb hne).2

theorem sampledIdentity_matches (h : (sampledIdentity fs e).matchesWith seen)
    (he : e.identity.kind ≠ .regular) : identify (fs e.path) = .ok (sampledIdentity fs e) := by
  obtain ⟨-, hk⟩ := Identity.matchesWith_iff.mp h
  unfold sampledIdentity at hk ⊢
  split at hk
  case h_1 => exact absurd hk he
  case h_2 seen' hseen =>
    split_ifs at hk with hreg
    · rw [hseen, if_pos hreg]
    · exact absurd hk he

theorem mem_reached (h : e ∈ reached fs entries call) : e ∈ entries := by
  cases call with
  | canonicalize reference path =>
    exact (List.takeWhile_subset _) (List.mem_of_mem_filter h)
  | refresh owner => exact (List.takeWhile_subset _) (List.mem_of_mem_filter h)
  | complete reference failed => exact List.mem_of_mem_filter h
  | validate path => cases h
  | remove owner => cases h

/-- Only missing entries are sampled. -/
theorem reached_missing (hs : Sound entries) (h : e ∈ reached fs entries call) :
    e.identity.kind = .missing := by
  cases call with
  | canonicalize reference path => exact (of_decide_eq_true (List.mem_filter.mp h).2).1
  | refresh owner => exact (of_decide_eq_true (List.mem_filter.mp h).2).1
  | complete reference failed =>
    obtain ⟨hmem, hp⟩ := List.mem_filter.mp h
    have hwf := hs.wellFormed e hmem
    have hp := of_decide_eq_true hp
    rcases hk : e.identity.kind with _ | _ | _
    · rfl
    · rw [hwf.regular hk] at hp
      cases hp
    · exact absurd hk hwf.known
  | validate path => cases h
  | remove owner => cases h

theorem sampleEntry_key (e : Entry) :
    key (sampleEntry fs e) = (e.path, sampledIdentity fs e) := by
  unfold sampleEntry sampledIdentity key
  split
  · rfl
  · split <;> simp

theorem reachedPending_cons_of_not (h : ¬ sampled owner e) :
    reachedPending fs owner (e :: entries) = reachedPending fs owner entries := by
  simp [reachedPending, h]

theorem reachedPending_cons_of_readable (h : sampled owner e) (hread : readable fs e.path) :
    reachedPending fs owner (e :: entries) = e :: reachedPending fs owner entries := by
  simp [reachedPending, h, hread]

theorem reachedPending_cons_of_unreadable (h : sampled owner e) (hread : ¬ readable fs e.path) :
    reachedPending fs owner (e :: entries) = [] := by
  simp [reachedPending, h, hread]

/-- With distinct entries the loop of `CapturePending` captures exactly the
reached ones. -/
theorem capturePendingFrom_eq (hnodup : entries.Nodup) :
    (capturePendingFrom (fun _ ↦ fs) owner n entries).1 =
      entries.map fun e ↦ if e ∈ reachedPending fs owner entries then sampleEntry fs e else e := by
  induction entries generalizing n with
  | nil => rfl
  | cons e es ih =>
    obtain ⟨hmem, hnodup⟩ := List.nodup_cons.mp hnodup
    have htail (reached : List Entry) (hreached : ∀ f ∈ es, f ∈ reached ↔
        f ∈ reachedPending fs owner es) :
        (es.map fun f ↦ if f ∈ reachedPending fs owner es then sampleEntry fs f else f) =
          es.map fun f ↦ if f ∈ reached then sampleEntry fs f else f := by
      refine List.map_congr_left fun f hf ↦ ?_
      simp only [hreached f hf]
    have hnot : e ∉ reachedPending fs owner es := fun h ↦
      hmem (List.takeWhile_subset _ (List.mem_of_mem_filter h))
    unfold capturePendingFrom
    split
    case isFalse hs =>
      dsimp only
      rw [reachedPending_cons_of_not hs, List.map_cons, if_neg hnot, ih hnodup]
    case isTrue hs =>
      split
      case h_1 message hlook =>
        have hread : ¬ readable fs e.path := by simp [readable, hlook, Except.isOk, Except.toBool]
        simp [reachedPending_cons_of_unreadable hs hread]
      case h_2 seen hlook =>
        have hread : readable fs e.path := by simp [readable, hlook, Except.isOk, Except.toBool]
        dsimp only
        rw [reachedPending_cons_of_readable hs hread, List.map_cons, if_pos List.mem_cons_self,
          ih hnodup, htail (e :: reachedPending fs owner es) fun f hf ↦ ?_]
        · simp [sampleEntry, hlook]
        · have hne : f ≠ e := fun heq ↦ hmem (heq ▸ hf)
          simp [hne]

theorem completeFrom_eq :
    completeFrom (fun _ ↦ fs) reference failed n entries =
      entries.map (completeEntry fs reference failed) := by
  induction entries generalizing n with
  | nil => rfl
  | cons e es ih => rw [completeFrom, ih, List.map_cons]

theorem completeEntry_key :
    key (completeEntry fs reference failed e) =
      (e.path, if reference ∈ e.pending then sampledIdentity fs e else e.identity) := by
  unfold completeEntry sampledIdentity key
  split_ifs with hp
  · rcases hlook : identify (fs e.path) with message | seen
    · rfl
    · dsimp only
      split_ifs <;> simp [Entry.retract]
  · rfl

theorem keys_eq_of_updates
    (h : List.Forall₂ (fun e e' ↦ e' = e ∨ e' = e.addReference reference) entries entries') :
    entries'.map key = entries.map key := by
  refine (Pointwise.map_eq ?_ h).symm
  rintro e e' (rfl | rfl)
  · rfl
  · simp [key]

/-- A completed entry with a sampled file is not swept. -/
theorem completeEntry_used (hs : Sound entries) (he : e ∈ entries)
    (hk : (key (completeEntry fs reference failed e)).2.kind = .regular) :
    (completeEntry fs reference failed e).isUnused = false := by
  rw [completeEntry_key] at hk
  unfold completeEntry
  split_ifs at hk ⊢ with hp
  case neg => exact hs.used e he
  case pos =>
    have hmissing : e.identity.kind = .missing := by
      have hreached : e ∈ reached fs entries (.complete reference failed) :=
        List.mem_filter.mpr ⟨he, decide_eq_true hp⟩
      exact reached_missing hs hreached
    unfold sampledIdentity at hk
    rcases hlook : identify (fs e.path) with message | seen
    · simp [hlook, hmissing] at hk
    · simp only [hlook] at hk
      split_ifs at hk with hreg
      · have hheld : (e.capture seen).holds reference :=
          .inr (Entry.mem_capture.mpr (.inr ⟨reference, hp, rfl⟩))
        simpa only [if_pos hreg] using hheld.used
      · simp [hmissing] at hk

/-- What a call makes of the keys: those there were, with the reached files
sampled, less what is swept, and perhaps a new one. -/
structure KeysAfter (fs : Path → Stat) (entries : List Entry) (call : Call)
    (new : List (Path × Identity)) : Prop where
  sublist : ((step (fun _ ↦ fs) entries call).map key).Sublist
    (entries.map (keyAfter fs (reached fs entries call)) ++ new)
  kept : (∀ owner, call ≠ .remove owner) →
    ∀ k ∈ entries.map (keyAfter fs (reached fs entries call)), k.2.kind = .regular →
      k ∈ (step (fun _ ↦ fs) entries call).map key
  fresh : new = [] ∨ ∃ k, new = [k] ∧
    ∀ e ∈ entries.map (keyAfter fs (reached fs entries call)), e.1 ≠ k.1 ∧ ¬ e.2.matchesWith k.2

theorem KeysAfter.of_eq
    (h : (step (fun _ ↦ fs) entries call).map key =
      entries.map (keyAfter fs (reached fs entries call))) :
    KeysAfter fs entries call [] where
  sublist := by rw [List.append_nil, h]
  kept := fun _ k hk _ ↦ h ▸ hk
  fresh := .inl rfl

theorem step_keys (hs : Sound entries) (hnodup : entries.Nodup) (fs : Path → Stat) (call : Call) :
    ∃ new, KeysAfter fs entries call new := by
  have hcaptured (owner : Option Owner) :
      (capturePending (fun _ ↦ fs) owner entries).1.map key =
        entries.map (keyAfter fs (reachedPending fs owner entries)) := by
    rw [capturePending, capturePendingFrom_eq hnodup, List.map_map]
    refine List.map_congr_left fun e _ ↦ ?_
    simp only [Function.comp_apply, keyAfter, identityAfter]
    split
    · exact sampleEntry_key e
    · rfl
  cases call with
  | validate path =>
    refine ⟨[], .of_eq (List.map_congr_left fun e _ ↦ ?_)⟩
    simp [key, keyAfter, identityAfter, reached]
  | refresh owner => exact ⟨[], .of_eq (hcaptured (some owner))⟩
  | remove owner =>
    have hkeys : (entries.map (·.forget owner)).map key =
        entries.map (keyAfter fs (reached fs entries (.remove owner))) := by
      rw [List.map_map]
      refine List.map_congr_left fun e _ ↦ ?_
      simp [key, keyAfter, identityAfter, reached, Entry.forget]
    refine ⟨[], ?_, fun h ↦ absurd rfl (h owner), .inl rfl⟩
    rw [List.append_nil, ← hkeys]
    exact List.filter_sublist.map key
  | complete reference failed =>
    have hkeys : ∀ e ∈ entries, key (completeEntry fs reference failed e) =
        keyAfter fs (reached fs entries (.complete reference failed)) e := by
      intro e he
      simp [completeEntry_key, keyAfter, identityAfter, reached, he]
    refine ⟨[], ?_, ?_, .inl rfl⟩
    · have hmap : (entries.map (completeEntry fs reference failed)).map key =
          entries.map (keyAfter fs (reached fs entries (.complete reference failed))) := by
        rw [List.map_map]
        exact List.map_congr_left hkeys
      rw [List.append_nil, ← hmap, step, complete, completeFrom_eq]
      exact List.filter_sublist.map key
    · intro _ k hk hreg
      obtain ⟨e, he, rfl⟩ := List.mem_map.mp hk
      rw [← hkeys e he] at hreg ⊢
      refine List.mem_map_of_mem (mem_removeUnused.mpr ⟨?_, completeEntry_used hs he hreg⟩)
      rw [completeFrom_eq]
      exact List.mem_map_of_mem he
  | canonicalize reference path =>
    rcases canonicalize_cases (fun _ ↦ fs) reference path entries with
      heq | ⟨fs', seen, found, hfound, heq⟩ | ⟨n, seen, -, -, hnew, heq⟩
    · refine ⟨[], .of_eq ?_⟩
      rw [step, heq]
      exact hcaptured none
    · refine ⟨[], .of_eq ?_⟩
      rw [step, heq, keys_eq_of_updates (lookup_updates hfound)]
      exact hcaptured none
    · have hkeys : (step (fun _ ↦ fs) entries (.canonicalize reference path)).map key =
          entries.map (keyAfter fs (reached fs entries (.canonicalize reference path))) ++
            [(path, seen)] := by
        rw [step, heq, List.map_append, hcaptured none]
        simp [key, reached]
      refine ⟨[(path, seen)], hkeys ▸ List.Sublist.refl _, fun _ k hk _ ↦ ?_,
        .inr ⟨(path, seen), rfl, fun k hk ↦ ?_⟩⟩
      · rw [hkeys]
        exact List.mem_append_left _ hk
      · rw [reached, ← hcaptured none] at hk
        obtain ⟨e, he, rfl⟩ := List.mem_map.mp hk
        exact hnew e he

theorem Distinct.nodup (h : Distinct entries) : entries.Nodup :=
  List.Pairwise.imp (fun hab heq ↦ hab.1 (congrArg Entry.path heq)) h

/-- Sampled apart, distinct entries stay distinct. -/
theorem Distinct.sampled (h : Distinct entries) (hs : Sound entries)
    (hapart : Apart fs entries call) :
    KeysDistinct (entries.map (keyAfter fs (reached fs entries call))) := by
  rw [KeysDistinct, List.pairwise_map]
  refine List.Pairwise.imp_of_mem ?_ h
  intro e f he hf hef
  refine ⟨hef.1, fun hm ↦ ?_⟩
  simp only [keyAfter, identityAfter] at hm
  split_ifs at hm with hre hrf hrf
  · -- both are captured, and see one file
    have hke := sampledIdentity_matches hm (by rw [reached_missing hs hre]; decide)
    have hkf := sampledIdentity_matches (Identity.matchesWith_comm.mp hm)
      (by rw [reached_missing hs hrf]; decide)
    exact (hapart f hrf e he hef.1 _ hkf).2 hre _ hke hm
  · have hke := sampledIdentity_matches hm (by rw [reached_missing hs hre]; decide)
    exact (hapart e hre f hf hef.1.symm _ hke).1 (Identity.matchesWith_comm.mp hm)
  · have hkf := sampledIdentity_matches (Identity.matchesWith_comm.mp hm)
      (by rw [reached_missing hs hrf]; decide)
    exact (hapart f hrf e he hef.1 _ hkf).1 hm
  · exact hef.2 hm

theorem Distinct.step (h : Distinct entries) (hs : Sound entries)
    (hapart : Apart fs entries call) : Distinct (Registry.step (fun _ ↦ fs) entries call) := by
  obtain ⟨new, hsub, -, hnew⟩ := step_keys hs h.nodup fs call
  refine keysDistinct_map.mp (List.Pairwise.sublist hsub ?_)
  rcases hnew with rfl | ⟨k, rfl, hk⟩
  · rw [List.append_nil]
    exact h.sampled hs hapart
  · rw [List.pairwise_append]
    refine ⟨h.sampled hs hapart, List.pairwise_singleton _ k, fun a ha b hb ↦ ?_⟩
    rw [List.mem_singleton.mp hb]
    exact hk a ha

/-- A call that keeps the entries distinct has sampled them apart. -/
theorem Distinct.apart (h : Distinct entries) (hs : Sound entries)
    (hstep : Distinct (Registry.step (fun _ ↦ fs) entries call)) : Apart fs entries call := by
  intro e he f hf hpath seen hseen
  obtain ⟨new, -, hkept, -⟩ := step_keys hs h.nodup fs call
  have hcall : ∀ owner, call ≠ .remove owner := by
    rintro owner rfl
    cases he
  have hkeys : KeysDistinct ((Registry.step (fun _ ↦ fs) entries call).map key) :=
    keysDistinct_map.mpr hstep
  have hmem (g : Entry) (hg : g ∈ entries) := List.mem_map_of_mem
    (f := keyAfter fs (reached fs entries call)) hg
  -- two entries that carry one file after the call
  have hboth (hme : (identityAfter fs (reached fs entries call) f).matchesWith
      (identityAfter fs (reached fs entries call) e)) : False := by
    have hregf := (Identity.matchesWith_iff.mp hme).2
    have hrege := (Identity.matchesWith_iff.mp (Identity.matchesWith_comm.mp hme)).2
    refine hkeys.apart (hkept hcall _ (hmem f hf) hregf)
      (hkept hcall _ (hmem e (mem_reached he)) hrege) ?_ hme
    exact fun heq ↦ hpath (congrArg Prod.fst heq)
  have hafter {g : Entry} {seen' : Identity} (hg : g ∈ reached fs entries call)
      (hg' : identify (fs g.path) = .ok seen') (hreg : seen'.kind = .regular) :
      identityAfter fs (reached fs entries call) g = seen' := by
    simp [identityAfter, hg, sampledIdentity, hg', hreg]
  refine ⟨fun hm ↦ ?_, fun hrf seen' hseen' hm ↦ ?_⟩
  · have hreg := (Identity.matchesWith_iff.mp (Identity.matchesWith_comm.mp hm)).2
    have hnot : f ∉ reached fs entries call := by
      intro hrf
      have hmissing := reached_missing hs hrf
      rw [(Identity.matchesWith_iff.mp hm).2] at hmissing
      cases hmissing
    apply hboth
    rw [hafter he hseen hreg, identityAfter, if_neg hnot]
    exact hm
  · have hreg := (Identity.matchesWith_iff.mp (Identity.matchesWith_comm.mp hm)).2
    have hreg' := (Identity.matchesWith_iff.mp hm).2
    apply hboth
    rw [hafter he hseen hreg, hafter hrf hseen' hreg']
    exact hm

theorem sound_run (ms : List Moment) : Sound (Runs.run stepAt [] ms) :=
  Runs.invariant (fun _ m h ↦ h.step (fun _ ↦ m.fs) m.call) Sound.nil ms

/-- Along a run, one database file has one registered path in every state
reached exactly when every call samples its entries apart. -/
theorem distinct_run_iff (ms : List Moment) :
    (∀ ms₁ ms₂, ms = ms₁ ++ ms₂ → Distinct (Runs.run stepAt [] ms₁)) ↔
      Runs.Guarded stepAt (fun entries m ↦ Apart m.fs entries m.call) [] ms := by
  constructor
  · intro h
    refine Runs.guarded_iff.mpr fun ms₁ m ms₂ heq ↦ ?_
    have hafter := h (ms₁ ++ [m]) ms₂ (by rw [heq, List.append_assoc, List.singleton_append])
    rw [Runs.run_snoc] at hafter
    exact (h ms₁ (m :: ms₂) heq).apart (sound_run ms₁) hafter
  · rintro h ms₁ ms₂ rfl
    have hinv : Sound (Runs.run stepAt [] ms₁) ∧ Distinct (Runs.run stepAt [] ms₁) := by
      refine h.left.invariant (I := fun entries ↦ Sound entries ∧ Distinct entries) ?_
        ⟨Sound.nil, List.Pairwise.nil⟩
      intro entries m hI hapart
      exact ⟨hI.1.step _ _, hI.2.step hI.1 hapart⟩
    exact hinv.2

/-- Two missing paths, opened by two queries, become hard links of one file
before either query completes. -/
def linkedMoments : List Moment :=
  let absent : Path → Stat := fun _ ↦ .failed .noent
  let linked : Path → Stat := fun _ ↦ .found true 1 7
  [⟨absent, .canonicalize ⟨1, some 0⟩ (ascii "/a")⟩, ⟨absent, .canonicalize ⟨2, some 1⟩ (ascii "/b")⟩,
    ⟨linked, .complete ⟨1, some 0⟩ false⟩, ⟨linked, .complete ⟨2, some 1⟩ false⟩]

theorem not_distinct_linked :
    ¬ ∀ ms : List Moment, ∀ ms₁ ms₂, ms = ms₁ ++ ms₂ → Distinct (Runs.run stepAt [] ms₁) := by
  intro h
  have hlast := h linkedMoments linkedMoments [] (by rw [List.append_nil])
  revert hlast
  decide

end Registry

end PdoDuckdb.Filesystem
