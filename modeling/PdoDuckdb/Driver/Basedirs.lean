import PdoDuckdb.Driver.Containment

namespace PdoDuckdb.Driver.Profile

open Library Library.Exits

section Steps

variable {Ω α : Type} {E : SandboxEngine Ω} {v2 : Bool} {s t : State Ω} {h : ℕ} {basedir : List Byte}

/-- A cleanup: at most a refusal comes of it. -/
structure Cleaned (E : SandboxEngine Ω) (s t : State Ω) : Prop where
  view : E.view t.world = E.view s.world
  admitted : t.admitted = s.admitted
  shared : t.shared = s.shared ∨ ∃ reason, t.shared = s.shared.refuse reason

theorem Shared.refuse_refuse (i : Shared) (reason other : List Byte) :
    (i.refuse reason).refuse other = i.refuse reason := by
  unfold refuse
  cases i.sandboxRefusal <;> rfl

theorem Cleaned.refuse {reason : List Byte} (hs : Cleaned E s t) :
    Cleaned E s { t with shared := t.shared.refuse reason } := by
  refine ⟨hs.view, hs.admitted, .inr ?_⟩
  rcases hs.shared with hshared | ⟨first, hshared⟩
  · exact ⟨reason, congrArg (Shared.refuse · reason) hshared⟩
  · refine ⟨first, ?_⟩
    change t.shared.refuse reason = _
    rw [hshared, Shared.refuse_refuse]

theorem orRefuse_cleaned {f : Ω → Bool × Ω} {reason : List Byte} (hf : ∀ w, E.view (f w).2 = E.view w) :
    Meets (Cleaned E s) (orRefuse (call f) reason (pure true)) (fun _ ↦ Cleaned E s) fun _ ↦ Cleaned E s := by
  refine Meets.bind (Q := fun _ ↦ Cleaned E s) (Meets.step fun t ht ↦ ⟨(hf _).trans ht.view, ht.admitted, ht.shared⟩)
    fun ok ↦ ?_
  cases ok with
  | true => exact Meets.pure fun t ht ↦ ht
  | false => exact Meets.bind (Meets.step fun t ht ↦ ht.refuse) fun _ ↦ Meets.pure fun t ht ↦ ht

theorem nativeCleanupEnter_cleaned (hE : Documented E) (h : ℕ) (basedir : List Byte) (s : State Ω) :
    Cleaned E s (nativeCleanupEnter E h basedir s).2 := by
  have hmeets : Meets (Cleaned E s) (nativeCleanupEnter E h basedir) (fun _ ↦ Cleaned E s) fun _ ↦ Cleaned E s := by
    unfold nativeCleanupEnter
    split
    · exact Meets.pure fun t ht ↦ ht
    · exact Meets.bind (orRefuse_cleaned hE.clearInstanceWriters) fun _ ↦
        Meets.bind (orRefuse_cleaned (hE.clearLocalWriters (some h))) fun _ ↦ Meets.pure fun t ht ↦ ht
  have hends := hmeets s ⟨rfl, rfl, .inl rfl⟩
  match nativeCleanupEnter E h basedir s, hends with
  | (.ok _, t), hends => exact hends
  | (.error _, t), hends => exact hends

/-- An instance that has recorded an `open_basedir` is contained in it, and only a
call under it is admitted. -/
structure Sound (E : SandboxEngine Ω) (v2 : Bool) (s : State Ω) : Prop where
  recorded : ∀ basedir, s.shared.sandboxBasedir = some basedir →
    s.shared.externalAccessDisabled = true ∧ Contained (E.insideBasedir basedir) v2 (E.view s.world)
  disabled : s.shared.externalAccessDisabled = true → s.shared.sandboxRefusal = none → s.shared.sandboxBasedir.isSome
  admitted : ∀ basedir, basedir ≠ [] → s.admitted = some basedir → s.shared.sandboxBasedir = some basedir

theorem Sound.initial (w : Ω) : Sound E v2 (State.initial w) :=
  ⟨fun _ h ↦ (by cases h), fun h ↦ (by cases h), fun _ _ h ↦ (by cases h)⟩

theorem Sound.leave (hs : Sound E v2 s) : Sound E v2 { s with admitted := none } :=
  ⟨hs.recorded, hs.disabled, fun _ _ h ↦ (by cases h)⟩

theorem Sound.cleaned (hs : Sound E v2 s) (ht : Cleaned E s t) : Sound E v2 t := by
  have hsame : t.shared.sandboxBasedir = s.shared.sandboxBasedir ∧
      t.shared.externalAccessDisabled = s.shared.externalAccessDisabled ∧
      (t.shared.sandboxRefusal = none → s.shared.sandboxRefusal = none) := by
    rcases ht.shared with hshared | ⟨reason, hshared⟩
    · rw [hshared]
      exact ⟨rfl, rfl, id⟩
    · rw [hshared]
      exact ⟨rfl, rfl, fun h ↦ absurd (Shared.isSome_refuse s.shared reason) (by rw [h]; decide)⟩
  obtain ⟨hbasedir, hdisabled, hrefusal⟩ := hsame
  refine ⟨fun basedir h ↦ ?_, fun h hnone ↦ ?_, fun basedir hne h ↦ ?_⟩
  · rw [hdisabled, ht.view]
    exact hs.recorded basedir (hbasedir ▸ h)
  · rw [hbasedir]
    exact hs.disabled (hdisabled ▸ h) (hrefusal hnone)
  · rw [hbasedir]
    exact hs.admitted basedir hne (ht.admitted ▸ h)

theorem Sound.entered (hs : Sound E v2 s) (ht : Entered E v2 basedir s t) : Sound E v2 t := by
  have hfree : s.shared.externalAccessDisabled = false → s.shared.sandboxBasedir = Option.none := by
    intro hdisabled
    cases hbasedir : s.shared.sandboxBasedir with
    | none => rfl
    | some other => exact absurd (hs.recorded other hbasedir).1 (by rw [hdisabled]; decide)
  cases ht with
  | refused hrefused => exact hs.leave
  | unbounded hrefused hempty =>
    refine ⟨hs.recorded, hs.disabled, fun other hne h ↦ absurd hempty ?_⟩
    rw [Option.some.inj h]
    exact hne
  | same hrefused hsame =>
    refine ⟨hs.recorded, hs.disabled, fun other hne h ↦ ?_⟩
    rw [← Option.some.inj h]
    exact hsame
  | other hrefused hdisabled hother => exact hs.leave
  | contained hrefused hdisabled hadmitted hsettled =>
    refine ⟨fun other h ↦ ?_, fun _ _ ↦ ?_, fun other hne h ↦ ?_⟩
    · rw [hsettled.1] at h ⊢
      obtain rfl := Option.some.inj h
      exact ⟨rfl, hsettled.2⟩
    · rw [hsettled.1]
      rfl
    · rw [hsettled.1, ← h, hadmitted]
  | failed hrefused hdisabled hadmitted hfailed =>
    obtain ⟨hrefusal, hbasedir, _⟩ := hfailed
    refine ⟨fun other h ↦ ?_, fun _ hnone ↦ ?_, fun other hne h ↦ ?_⟩
    · rw [hbasedir, hfree hdisabled] at h
      cases h
    · rw [hnone] at hrefusal
      cases hrefusal
    · rw [hadmitted] at h
      cases h

theorem Sound.step (hE : Documented E) (hs : Sound E v2 s) {e : Event Ω} (he : Admits E s e) :
    Sound E v2 (Profile.step E v2 s e) := by
  cases e with
  | enter h basedir => exact hs.entered (nativeEnter_entered hE v2 basedir s)
  | cleanupEnter h basedir => exact hs.cleaned (nativeCleanupEnter_cleaned hE h basedir s)
  | leave => exact hs.leave
  | sql world =>
    refine ⟨fun basedir h ↦ ?_, hs.disabled, hs.admitted⟩
    obtain ⟨hdisabled, hcontained⟩ := hs.recorded basedir h
    exact ⟨hdisabled, hcontained.kept he.2⟩
  | joins h => exact ⟨hs.recorded, hs.disabled, hs.admitted⟩
  | parts h => exact ⟨hs.recorded, hs.disabled, hs.admitted⟩

def Latched (reason : List Byte) (s : State Ω) : Prop :=
  s.shared.sandboxRefusal = some reason ∧ s.admitted = none

theorem Latched.step (hE : Documented E) {reason : List Byte} (hs : Latched reason s) {e : Event Ω}
    (he : Admits E s e) : Latched reason (Profile.step E v2 s e) := by
  obtain ⟨hreason, hadmitted⟩ := hs
  cases e with
  | enter h basedir =>
    have hentered := nativeEnter_entered hE v2 basedir s
    change Latched reason (nativeEnter E v2 basedir s).2
    generalize (nativeEnter E v2 basedir s).2 = t at hentered
    cases hentered with
    | refused hrefused => exact ⟨hreason, rfl⟩
    | unbounded hrefused | same hrefused | other hrefused | contained hrefused | failed hrefused =>
      rw [hreason] at hrefused
      cases hrefused
  | cleanupEnter h basedir =>
    have hcleaned := nativeCleanupEnter_cleaned hE h basedir s
    refine ⟨?_, hcleaned.admitted.trans hadmitted⟩
    rcases hcleaned.shared with hshared | ⟨other, hshared⟩
    · exact (congrArg Shared.sandboxRefusal hshared).trans hreason
    · refine (congrArg Shared.sandboxRefusal hshared).trans ?_
      change s.shared.sandboxRefusal.or (some other) = some reason
      rw [hreason, Option.some_or]
  | leave => exact ⟨hreason, rfl⟩
  | sql world =>
    rw [Admits, hadmitted] at he
    cases he.1
  | joins h => exact ⟨hreason, hadmitted⟩
  | parts h => exact ⟨hreason, hadmitted⟩

/-- What an instance has recorded stays recorded. -/
theorem recorded_step (hE : Documented E) (hs : Sound E v2 s) (hbasedir : s.shared.sandboxBasedir = some basedir)
    (e : Event Ω) : (step E v2 s e).shared.sandboxBasedir = some basedir := by
  have hdisabled := (hs.recorded basedir hbasedir).1
  cases e with
  | enter h other =>
    have hentered := nativeEnter_entered hE v2 other s
    change (nativeEnter E v2 other s).2.shared.sandboxBasedir = _
    generalize (nativeEnter E v2 other s).2 = t at hentered
    cases hentered with
    | refused | unbounded | same | other => exact hbasedir
    | contained _ henabled | failed _ henabled =>
      rw [hdisabled] at henabled
      cases henabled
  | cleanupEnter h other =>
    have hcleaned := nativeCleanupEnter_cleaned hE h other s
    rcases hcleaned.shared with hshared | ⟨reason, hshared⟩
    · exact (congrArg Shared.sandboxBasedir hshared).trans hbasedir
    · exact (congrArg Shared.sandboxBasedir hshared).trans hbasedir
  | leave | sql | joins | parts => exact hbasedir

end Steps

section Plain

/-- Quoting keeps names apart. -/
theorem appendQuoted_injective (quote : Byte) : Function.Injective (appendQuoted · quote) := by
  intro s t h
  have hbody := List.append_cancel_right (List.cons.inj h).2
  clear h
  induction s generalizing t with
  | nil =>
    cases t with
    | nil => rfl
    | cons d t =>
      rw [List.flatMap_cons] at hbody
      split at hbody <;> cases hbody
  | cons c s ih =>
    cases t with
    | nil =>
      rw [List.flatMap_cons] at hbody
      split at hbody <;> cases hbody
    | cons d t =>
      rw [List.flatMap_cons, List.flatMap_cons] at hbody
      split at hbody <;> split at hbody <;> rename_i hc hd <;>
        simp only [List.cons_append, List.nil_append, List.cons.injEq] at hbody
      · rw [hbody.2.1, ih hbody.2.2]
      · exact absurd hbody.1.symm hd
      · exact absurd hbody.1 hc
      · rw [hbody.1, ih hbody.2]

def plainEngine : SandboxEngine View where
  view := id
  set s v := (true, v.set s)
  detach quoted v := (true, { v with attached := v.attached.filter fun d ↦ appendQuoted d.name '"'.toUInt8 ≠ quoted })
  listDatabases v := (some ⟨true, v.attached.map fun d ↦ [some d.name, some d.path], false⟩, v)
  listExtensions v := (.rows ⟨true, (v.loaded.filter fun x ↦ !containedExtensions.contains x).map fun x ↦ [some x], false⟩, v)
  clearInstanceWriters v := (true, v)
  clearLocalWriters _ v := (true, v)
  connect v := (true, v)
  stopQuackListeners v := (⟨⟩, v)
  allocate v := (true, v)
  strdup v := (true, v)
  insideBasedir basedir path := basedir.isPrefixOf path

theorem plainEngine_documented : Documented plainEngine := by
  refine ⟨fun _ _ ↦ rfl, fun name v ↦ ?_, fun v ↦ ⟨rfl, fun res hres _ _ ↦ ?_⟩, fun v ↦ ⟨rfl, fun res hres _ _ ↦ ?_⟩,
    fun _ ↦ rfl, fun _ _ ↦ rfl, fun _ ↦ rfl, fun _ ↦ rfl, fun _ ↦ rfl, fun _ ↦ rfl⟩
  · have hname (d : Database) : appendQuoted d.name '"'.toUInt8 = appendQuoted name '"'.toUInt8 ↔ d.name = name :=
      (appendQuoted_injective _).eq_iff
    simp [plainEngine, View.detach, hname]
  · obtain rfl := Option.some.inj hres
    rfl
  · injection hres with hres
    subst hres
    simp [plainEngine]

def plainView : View where
  setting _ := .bool true
  attached := [⟨ascii "in", ascii "/srv/a.db", by decide⟩, ⟨ascii "o\"ut", ascii "/tmp/b.db", by decide⟩]
  loaded := [ascii "json"]
  allowedPaths := [ascii "/tmp/b.db"]
  allowedDirectories := [.text (ascii "/tmp")]

def plainRun : List (Event View) := [.joins 1, .joins 2, .enter 1 (ascii "/srv")]

theorem plainRun_guarded : Runs.Guarded (step plainEngine true) (Admits plainEngine) (State.initial plainView)
    (plainRun ++ [.leave, .enter 2 (ascii "/tmp"), .enter 1 (ascii "/srv")]) :=
  .cons trivial <| .cons trivial <| .cons ⟨by decide, rfl⟩ <| .cons trivial <| .cons ⟨by decide, rfl⟩ <|
    .cons ⟨by decide, rfl⟩ <| .nil _

end Plain

section Runs

variable {Ω : Type} {E : SandboxEngine Ω} {v2 : Bool} {s : State Ω} {w : Ω} {events after : List (Event Ω)}

theorem Sound.run (hE : Documented E) (hs : Sound E v2 s) (h : Runs.Guarded (Profile.step E v2) (Admits E) s events) :
    Sound E v2 (Runs.run (Profile.step E v2) s events) :=
  h.invariant (fun _ _ hs he ↦ hs.step hE he) hs

theorem Latched.run (hE : Documented E) {reason : List Byte} (hs : Latched reason s)
    (h : Runs.Guarded (Profile.step E v2) (Admits E) s events) :
    Latched reason (Runs.run (Profile.step E v2) s events) :=
  h.invariant (fun _ _ hs he ↦ hs.step hE he) hs

theorem recorded_run (hE : Documented E) {basedir : List Byte} (hs : Sound E v2 s)
    (hbasedir : s.shared.sandboxBasedir = some basedir) (h : Runs.Guarded (step E v2) (Admits E) s events) :
    (Runs.run (step E v2) s events).shared.sandboxBasedir = some basedir := by
  refine (h.invariant (I := fun s ↦ Sound E v2 s ∧ s.shared.sandboxBasedir = some basedir) ?_ ⟨hs, hbasedir⟩).2
  exact fun s e hs he ↦ ⟨hs.1.step hE he, recorded_step hE hs.1 hs.2 e⟩

/-- After any run, what a call under an `open_basedir` has been admitted to is an
engine that is confined to it, whatever SQL has run. -/
theorem contained_run (hE : Documented E) (h : Runs.Guarded (step E v2) (Admits E) (State.initial w) events) :
    (∀ basedir, (Runs.run (step E v2) (State.initial w) events).shared.sandboxBasedir = some basedir →
      Contained (E.insideBasedir basedir) v2 (E.view (Runs.run (step E v2) (State.initial w) events).world)) ∧
    ∀ basedir, basedir ≠ [] → (Runs.run (step E v2) (State.initial w) events).admitted = some basedir →
      (Runs.run (step E v2) (State.initial w) events).shared.sandboxBasedir = some basedir := by
  have hs := (Sound.initial w).run hE h
  exact ⟨fun basedir hbasedir ↦ (hs.recorded basedir hbasedir).2, hs.admitted⟩

theorem contained_run_plain :
    (Runs.run (step plainEngine true) (State.initial plainView) plainRun).admitted = some (ascii "/srv") ∧
    Contained (plainEngine.insideBasedir (ascii "/srv")) true
      (Runs.run (step plainEngine true) (State.initial plainView) plainRun).world :=
  have hrun := contained_run plainEngine_documented plainRun_guarded.left
  have hadmitted : (Runs.run (step plainEngine true) (State.initial plainView) plainRun).admitted = some (ascii "/srv") := by
    decide
  ⟨hadmitted, hrun.1 _ (hrun.2 _ (by decide) hadmitted)⟩

/-- What an entry under an `open_basedir` that led to the state `s` has come to in a
later state `t`. -/
inductive Decided (basedir : List Byte) (s t : State Ω) : Prop
  | admitted : s.admitted = some basedir → t.shared.sandboxBasedir = some basedir → Decided basedir s t
  | another {other : List Byte} : s.admitted = none → other ≠ basedir → t.shared.sandboxBasedir = some other →
      Decided basedir s t
  | refused {reason : List Byte} : Latched reason s → Latched reason t → Decided basedir s t

theorem Entered.decided (hE : Documented E) {basedir : List Byte} (hbasedir : basedir ≠ []) {t : State Ω}
    (hs : Sound E v2 s) (ht : Sound E v2 t) (hentered : Entered E v2 basedir s t)
    (hafter : Runs.Guarded (step E v2) (Admits E) t after) : Decided basedir t (Runs.run (step E v2) t after) := by
  have hadmitted (h : t.admitted = some basedir) : Decided basedir t (Runs.run (step E v2) t after) :=
    .admitted h (recorded_run hE ht (ht.admitted basedir hbasedir h) hafter)
  have hrefused (h : t.shared.sandboxRefusal.isSome) (hnone : t.admitted = none) :
      Decided basedir t (Runs.run (step E v2) t after) := by
    obtain ⟨reason, hreason⟩ := Option.isSome_iff_exists.mp h
    have hlatched : Latched reason t := ⟨hreason, hnone⟩
    exact .refused hlatched (hlatched.run hE hafter)
  cases hentered with
  | refused h => exact hrefused h rfl
  | unbounded _ hempty => exact absurd hempty hbasedir
  | same => exact hadmitted rfl
  | other hrefusal hdisabled hother =>
    obtain ⟨other, hsome⟩ := Option.isSome_iff_exists.mp (hs.disabled hdisabled hrefusal)
    refine .another rfl (fun h ↦ hother ?_) (recorded_run hE ht hsome hafter)
    rw [hsome, h]
  | contained _ _ h => exact hadmitted h
  | failed _ _ h hfailed => exact hrefused hfailed.1 h

/-- An entry under an `open_basedir` is admitted, and the instance is that one's for
good; or it is another's; or it is refused, which it stays, and admits nothing. -/
theorem entered_run (hE : Documented E) {h : ℕ} {basedir : List Byte} (hbasedir : basedir ≠ [])
    (hrun : Runs.Guarded (step E v2) (Admits E) (State.initial w) (events ++ .enter h basedir :: after)) :
    Decided basedir (Runs.run (step E v2) (State.initial w) (events ++ [.enter h basedir]))
      (Runs.run (step E v2) (State.initial w) (events ++ .enter h basedir :: after)) := by
  rw [← List.singleton_append, ← List.append_assoc] at hrun
  rw [← List.singleton_append (l := after), ← List.append_assoc]
  have hs := (Sound.initial w).run hE hrun.left.left
  have ht := (Sound.initial w).run hE hrun.left
  have hafter := hrun.right
  rw [Runs.run_snoc] at ht hafter ⊢
  rw [Runs.run_append, Runs.run_snoc]
  exact (nativeEnter_entered hE v2 basedir _).decided hE hbasedir hs ht hafter

theorem entered_run_plain :
    Decided (ascii "/srv")
      (Runs.run (step plainEngine true) (State.initial plainView) ([.joins 1, .joins 2] ++ [.enter 1 (ascii "/srv")]))
      (Runs.run (step plainEngine true) (State.initial plainView)
        ([.joins 1, .joins 2] ++ .enter 1 (ascii "/srv") :: [.leave, .enter 2 (ascii "/tmp"), .enter 1 (ascii "/srv")])) ∧
    Decided (ascii "/tmp")
      (Runs.run (step plainEngine true) (State.initial plainView) (plainRun ++ [.leave] ++ [.enter 2 (ascii "/tmp")]))
      (Runs.run (step plainEngine true) (State.initial plainView)
        (plainRun ++ [.leave] ++ .enter 2 (ascii "/tmp") :: [.enter 1 (ascii "/srv")])) :=
  ⟨entered_run plainEngine_documented (by decide) plainRun_guarded,
    entered_run plainEngine_documented (by decide) plainRun_guarded⟩

end Runs

end PdoDuckdb.Driver.Profile
