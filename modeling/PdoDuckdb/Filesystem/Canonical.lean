import PdoDuckdb.Filesystem.Identity

namespace PdoDuckdb.Filesystem

open Registry Library

namespace Registry

variable {fs : Path → Stat} {entries entries' : List Entry} {e f : Entry} {p q path : Path}
  {seen : Identity} {reference : PendingReference} {n : ℕ}

/-- `ValidateEntry` throws. -/
def Stale (fs : Path → Stat) (e : Entry) : Prop := validateEntry fs e ≠ .ok ()

/-- The path of a sampled entry is unlinked, or is another file's now. -/
def Replaced (fs : Path → Stat) (e : Entry) : Prop :=
  e.identity.kind = .regular ∧ ∃ now, identify (fs e.path) = .ok now ∧ ¬ e.identity.matchesWith now

/-- The file of an entry, once a missing one has been sampled. -/
def fileOf (fs : Path → Stat) (e : Entry) : Identity :=
  if e.identity.kind = .missing then sampledIdentity fs e else e.identity

def denotes (fs : Path → Stat) (p : Path) (e : Entry) : Bool :=
  match identify (fs p) with
  | .error _ => false
  | .ok now => decide ((fileOf fs e).matchesWith now)

def names (fs : Path → Stat) (p : Path) (e : Entry) : Bool := decide (e.path = p) || denotes fs p e

def SameFile (fs : Path → Stat) (p q : Path) : Prop :=
  q = p ∨ ∃ now, identify (fs p) = .ok now ∧ identify (fs q) = .ok now ∧ now.kind = .regular

theorem validateEntry_ok_iff :
    validateEntry fs e = .ok () ↔ (e.identity.kind = .regular →
      ∃ now, identify (fs e.path) = .ok now ∧ e.identity.matchesWith now) := by
  unfold validateEntry
  split_ifs with hk
  · split
    case h_1 message hlook => simp [hk, hlook]
    case h_2 now hlook => simp [hk, hlook]
  · simp [hk]

theorem Replaced.stale (h : Replaced fs e) : Stale fs e := by
  obtain ⟨hk, now, hnow, hne⟩ := h
  intro hok
  obtain ⟨now', hnow', hm⟩ := validateEntry_ok_iff.mp hok hk
  rw [hnow] at hnow'
  exact hne (Except.ok.inj hnow' ▸ hm)

theorem validateFrom_ok_iff (fs : Path → Stat) (path : Path) (n : ℕ) (entries : List Entry) :
    validateFrom (fun _ ↦ fs) path n entries = .ok () ↔
      ∀ e ∈ entries, e.path = path → ¬ Stale fs e := by
  induction entries generalizing n with
  | nil => simp [validateFrom]
  | cons e es ih =>
    unfold validateFrom
    rw [List.forall_mem_cons]
    split_ifs with hp
    · split
      case h_1 message hv => simp [hp, Stale, hv]
      case h_2 hv => simp [ih, Stale, hv]
    · simp [ih, hp]

theorem capturePendingFrom_ok_iff (fs : Path → Stat) (owner : Option Owner) (n : ℕ)
    (entries : List Entry) :
    (capturePendingFrom (fun _ ↦ fs) owner n entries).2 = .ok () ↔
      ∀ e ∈ entries, sampled owner e → readable fs e.path := by
  induction entries generalizing n with
  | nil => simp [capturePendingFrom]
  | cons e es ih =>
    unfold capturePendingFrom
    rw [List.forall_mem_cons]
    split
    case isFalse hs => simp [ih, hs]
    case isTrue hs =>
      split
      case h_1 message hlook => simp [hs, readable, hlook, Except.isOk, Except.toBool]
      case h_2 seen hlook => simp [ih, hs, readable, hlook, Except.isOk, Except.toBool]

theorem sampled_none : sampled none e ↔ e.identity.kind = .missing := by
  simp [sampled]

/-- When no inspection fails, every missing entry has been sampled. -/
theorem capturePending_eq (hs : Sound entries)
    (hok : (capturePending (fun _ ↦ fs) none entries).2 = .ok ()) :
    (capturePending (fun _ ↦ fs) none entries).1 =
      entries.map fun e ↦ if e.identity.kind = .missing then sampleEntry fs e else e := by
  have hread := (capturePendingFrom_ok_iff fs none 0 entries).mp hok
  have hreached : reachedPending fs none entries =
      entries.filter fun e ↦ decide (sampled none e) := by
    unfold reachedPending
    congr 1
    refine List.takeWhile_eq_self_iff.mpr fun e he ↦ ?_
    by_cases hsampled : sampled none e
    · simp [hread e he hsampled]
    · simp [hsampled]
  rw [capturePending, capturePendingFrom_eq hs.paths.of_map, hreached]
  refine List.map_congr_left fun e he ↦ ?_
  simp [he, sampled_none]

theorem lookup_result (fs : Path → Stat) (path : Path) (seen : Identity)
    (reference : PendingReference) (entries : List Entry) :
    (lookup fs path seen reference entries).map Prod.snd =
      (entries.find? fun e ↦ decide (e.path = path ∨ e.identity.matchesWith seen)).map fun e ↦
        match validateEntry fs e with
        | .error message => .error message
        | .ok () => .ok e.path := by
  induction entries with
  | nil => rfl
  | cons e es ih =>
    unfold lookup
    split_ifs with h
    · rw [List.find?_cons_of_pos (by simpa using h), Option.map_some]
      split <;> simp_all
    · rw [List.find?_cons_of_neg (by simpa using h), ← ih, Option.map_map]
      rfl

/-- The entry after its sampling: what the loop of `Canonicalize` reads of it. -/
theorem sampled_names (hseen : identify (fs p) = .ok seen) (e : Entry) :
    (decide ((if e.identity.kind = .missing then sampleEntry fs e else e).path = p ∨
      (if e.identity.kind = .missing then sampleEntry fs e else e).identity.matchesWith seen)) =
        names fs p e := by
  have hkey : key (sampleEntry fs e) = (e.path, sampledIdentity fs e) := sampleEntry_key e
  have hpath : (sampleEntry fs e).path = e.path := congrArg Prod.fst hkey
  have hid : (sampleEntry fs e).identity = sampledIdentity fs e := congrArg Prod.snd hkey
  by_cases hk : e.identity.kind = .missing
  · simp [names, denotes, hseen, fileOf, hk, hpath, hid]
  · simp [names, denotes, hseen, fileOf, hk]

theorem sampled_valid (fs : Path → Stat) (e : Entry) :
    validateEntry fs (if e.identity.kind = .missing then sampleEntry fs e else e) = .ok () ↔
      ¬ Stale fs e := by
  rw [Stale, not_not]
  split_ifs with hk
  · -- a file just sampled is the file of its path
    have hvalid : validateEntry fs e = .ok () :=
      validateEntry_ok_iff.mpr fun hreg ↦ absurd (hreg.symm.trans hk) (by decide)
    refine iff_of_true (validateEntry_ok_iff.mpr ?_) hvalid
    unfold sampleEntry
    split
    case h_1 => exact fun hreg ↦ absurd (hreg.symm.trans hk) (by decide)
    case h_2 seen hseen =>
      split_ifs with hreg
      · exact fun _ ↦ ⟨seen, by rwa [Entry.capture_path],
          Identity.matchesWith_iff.mpr ⟨rfl, hreg⟩⟩
      · exact fun hreg' ↦ absurd (hreg'.symm.trans hk) (by decide)
  · rfl

/-- What `Canonicalize` answers when no inspection fails. -/
theorem canonicalize_result (hs : Sound entries)
    (hok : (capturePending (fun _ ↦ fs) none entries).2 = .ok ())
    (hseen : identify (fs p) = .ok seen) :
    (canonicalize (fun _ ↦ fs) reference p entries).2 = .ok q ↔
      entries.find? (names fs p) = none ∧ q = p ∨
      ∃ e, entries.find? (names fs p) = some e ∧ ¬ Stale fs e ∧ q = e.path := by
  let sample (e : Entry) : Entry := if e.identity.kind = .missing then sampleEntry fs e else e
  have hpath (e : Entry) : (sample e).path = e.path := by
    simp only [sample]
    split_ifs
    · exact congrArg Prod.fst (sampleEntry_key e)
    · rfl
  have hcaptured : (capturePending (fun _ ↦ fs) none entries).1 = entries.map sample :=
    capturePending_eq hs hok
  have hlookup := lookup_result fs p seen reference (entries.map sample)
  rw [List.find?_map] at hlookup
  have hnames : ((fun e : Entry ↦ decide (e.path = p ∨ e.identity.matchesWith seen)) ∘ sample) =
      names fs p := funext fun e ↦ sampled_names hseen e
  rw [hnames] at hlookup
  rcases hc : capturePending (fun _ ↦ fs) none entries with ⟨captured, result⟩
  rw [hc] at hok hcaptured
  obtain rfl : result = .ok () := hok
  obtain rfl : captured = entries.map sample := hcaptured
  unfold canonicalize
  rw [hc]
  simp only [hseen]
  rcases hfind : entries.find? (names fs p) with _ | e
  · rw [hfind, Option.map_none, Option.map_none, Option.map_eq_none_iff] at hlookup
    rw [hlookup]
    dsimp only
    split_ifs <;> simp [eq_comm]
  · rw [hfind, Option.map_some, Option.map_some, Option.map_eq_some_iff] at hlookup
    obtain ⟨found, hfound, hanswer⟩ := hlookup
    rw [hfound]
    dsimp only
    rw [hanswer]
    have hvalid := sampled_valid fs e
    split
    case h_1 message hv =>
      simp only [sample] at hv
      rw [hv] at hvalid
      have hstale : Stale fs e := by simpa using hvalid
      simp [hstale]
    case h_2 hv =>
      have hok' : ¬ Stale fs e := hvalid.mp hv
      simp [hok', hpath, eq_comm]

end Registry

namespace System

variable {s : System} {fs : Path → Stat} {owner : Owner} {request : Request} {q : Path}

/-- A local request succeeds exactly when the pre-check and the inspections
pass, and the first entry of the path or its file is not stale. -/
theorem canonicalizePath_ok_iff (hs : Sound s.entries) (hlocal : request.isLocal)
    (hscheme : ¬ request.hasScheme) :
    (s.canonicalizePath (fun _ ↦ fs) owner request).2 = .ok q ↔
      (∀ e ∈ s.entries, e.path = request.lexical → ¬ Stale fs e) ∧
      (∀ e ∈ s.entries, e.identity.kind = .missing → readable fs e.path) ∧
      readable fs request.canonical ∧
      (s.entries.find? (names fs request.canonical) = none ∧ q = request.canonical ∨
        ∃ e, s.entries.find? (names fs request.canonical) = some e ∧ ¬ Stale fs e ∧
          q = e.path) := by
  have hpre := validateFrom_ok_iff fs request.lexical 0 s.entries
  have hcapture := capturePendingFrom_ok_iff fs none 0 s.entries
  simp only [sampled_none] at hcapture
  rw [canonicalizePath, if_neg (by simp [hlocal, hscheme]), ← hpre, ← hcapture, validate]
  rcases hv : validateFrom (fun _ ↦ fs) request.lexical 0 s.entries with message | _
  · simp
  · simp only [queryOf_entries, true_and]
    rcases hc : capturePendingFrom (fun _ ↦ fs) none 0 s.entries with ⟨captured, message | _⟩
    · have hfail : (canonicalize (fun _ ↦ fs) ⟨owner, (s.queryOf request.context).2⟩
          request.canonical s.entries).2 = .error message := by
        unfold canonicalize capturePending
        rw [hc]
      simp [hfail]
    · rcases hseen : identify (fs request.canonical) with message | seen
      · have hfail : (canonicalize (fun _ ↦ fs) ⟨owner, (s.queryOf request.context).2⟩
            request.canonical s.entries).2 = .error message := by
          unfold canonicalize capturePending
          rw [hc]
          simp [hseen]
        simp [hfail, readable, hseen, Except.isOk, Except.toBool]
      · have hok : (capturePending (fun _ ↦ fs) none s.entries).2 = .ok () := by
          rw [capturePending, hc]
        rw [canonicalize_result hs hok hseen]
        simp [readable, hseen, Except.isOk, Except.toBool]

end System

namespace Registry

variable {fs : Path → Stat} {entries : List Entry} {e f : Entry} {p q : Path}

/-- What an answer `q` to a request for the canonical path `p` must be. -/
structure Answers (fs : Path → Stat) (entries : List Entry) (p q : Path) : Prop where
  sameFile : SameFile fs p q
  unregistered : (∀ e ∈ entries, ¬ names fs p e) → q = p
  registered : (∃ e ∈ entries, denotes fs p e) → ∃ e ∈ entries, denotes fs p e ∧ q = e.path

theorem denotes_iff : denotes fs p e ↔
    ∃ now, identify (fs p) = .ok now ∧ (fileOf fs e).matchesWith now := by
  unfold denotes
  rcases identify (fs p) with message | now <;> simp

theorem not_stale_iff : ¬ Stale fs e ↔ (e.identity.kind = .regular →
    ∃ now, identify (fs e.path) = .ok now ∧ e.identity.matchesWith now) := by
  rw [Stale, not_not, validateEntry_ok_iff]

/-- An entry that is not stale has the file that its path shows. -/
theorem denotes_path (hk : (fileOf fs e).kind = .regular) (hvalid : ¬ Stale fs e) :
    identify (fs e.path) = .ok (fileOf fs e) := by
  unfold fileOf at hk ⊢
  split_ifs at hk ⊢ with hmissing
  · refine sampledIdentity_matches (Identity.matchesWith_iff.mpr ⟨rfl, hk⟩) ?_
    rw [hmissing]
    decide
  · obtain ⟨now, hnow, hm⟩ := not_stale_iff.mp hvalid hk
    rw [hnow, (Identity.matchesWith_iff.mp hm).1]

/-- An entry of the path that is not stale has the file the path shows. -/
theorem denotes_of_path (hwf : e.WellFormed) (hvalid : ¬ Stale fs e) (hp : e.path = p)
    {now : Identity} (hnow : identify (fs p) = .ok now) (hreg : now.kind = .regular) :
    denotes fs p e := by
  subst hp
  refine denotes_iff.mpr ⟨now, hnow, Identity.matchesWith_iff.mpr ?_⟩
  suffices h : fileOf fs e = now by exact ⟨h, h ▸ hreg⟩
  unfold fileOf
  split_ifs with hmissing
  · simp [sampledIdentity, hnow, hreg]
  · have hk : e.identity.kind = .regular := by
      rcases hk : e.identity.kind with _ | _ | _
      · exact absurd hk hmissing
      · rfl
      · exact absurd hk hwf.known
    obtain ⟨now', hnow', hm⟩ := not_stale_iff.mp hvalid hk
    rw [hnow] at hnow'
    rw [(Identity.matchesWith_iff.mp hm).1, ← Except.ok.inj hnow']

theorem answers_new (h : entries.find? (names fs p) = none) : Answers fs entries p p where
  sameFile := .inl rfl
  unregistered := fun _ ↦ rfl
  registered := by
    rintro ⟨e, he, hd⟩
    refine absurd hd ?_
    have hn := List.find?_eq_none.mp h e he
    simp only [names, Bool.or_eq_true, not_or] at hn
    exact hn.2

theorem answers_entry (hs : Sound entries) (h : entries.find? (names fs p) = some e)
    (hvalid : ¬ Stale fs e) : Answers fs entries p e.path where
  sameFile := by
    have hn := List.find?_some h
    simp only [names, Bool.or_eq_true, decide_eq_true_eq] at hn
    rcases hn with hp | hd
    · exact .inl hp
    · obtain ⟨now, hnow, hm⟩ := denotes_iff.mp hd
      obtain ⟨heq, hk⟩ := Identity.matchesWith_iff.mp hm
      exact .inr ⟨now, hnow, heq ▸ denotes_path hk hvalid, heq ▸ hk⟩
  unregistered := fun hnone ↦ absurd (List.find?_some h) (hnone e (List.mem_of_find?_eq_some h))
  registered := by
    rintro ⟨f, -, hd⟩
    obtain ⟨now, hnow, hm⟩ := denotes_iff.mp hd
    have hreg := (Identity.matchesWith_iff.mp (Identity.matchesWith_comm.mp hm)).2
    have he := List.mem_of_find?_eq_some h
    refine ⟨e, he, ?_, rfl⟩
    have hn := List.find?_some h
    simp only [names, Bool.or_eq_true, decide_eq_true_eq] at hn
    rcases hn with hp | hd
    · exact denotes_of_path (hs.wellFormed e he) hvalid hp hnow hreg
    · exact hd

/-- A request whose registered path has been replaced is caught before it is
answered: by the pre-check, by an inspection that fails, or at the first entry
of its path or file. -/
def Caught (fs : Path → Stat) (entries : List Entry) (request : Request) : Prop :=
  (∃ f ∈ entries, f.path = request.lexical ∧ Stale fs f) ∨
  (∃ f ∈ entries, f.identity.kind = .missing ∧ ¬ readable fs f.path) ∨
  ∀ f, entries.find? (names fs request.canonical) = some f → Stale fs f

end Registry

namespace System

variable {s : System} {fs : Path → Stat} {owner : Owner} {request : Request}

/-- A request is answered by a path of the same file, which is the registered
one where there is one, and is refused when its registered path has been
unlinked or replaced while it had owners. -/
structure Meets (s : System) (fs : Path → Stat) (owner : Owner) (request : Request) : Prop where
  answers : ∀ q, (s.canonicalizePath (fun _ ↦ fs) owner request).2 = .ok q →
    Answers fs s.entries request.canonical q
  refuses : ∀ e ∈ s.entries, e.path = request.canonical → e.owners ≠ [] → Replaced fs e →
    ∃ message, (s.canonicalizePath (fun _ ↦ fs) owner request).2 = .error message

theorem canonicalizePath_answers (hs : Sound s.entries) (hlocal : request.isLocal)
    (hscheme : ¬ request.hasScheme) {q : Path}
    (h : (s.canonicalizePath (fun _ ↦ fs) owner request).2 = .ok q) :
    Answers fs s.entries request.canonical q := by
  obtain ⟨-, -, -, hfound⟩ := (canonicalizePath_ok_iff hs hlocal hscheme).mp h
  rcases hfound with ⟨hnone, rfl⟩ | ⟨e, hsome, hvalid, rfl⟩
  · exact answers_new hnone
  · exact answers_entry hs hsome hvalid

/-- In every state the process reaches, a local request meets its
specification exactly when every replaced entry of its path is caught. -/
theorem canonicalizePath_meets_iff (ownerOf : Connection → Owner) (events : List Event)
    (fs : Path → Stat) (owner : Owner) (request : Request) (hlocal : request.isLocal)
    (hscheme : ¬ request.hasScheme) :
    let s := Runs.run (step ownerOf) initial events
    Meets s fs owner request ↔
      ∀ e ∈ s.entries, e.path = request.canonical → e.owners ≠ [] → Replaced fs e →
        Caught fs s.entries request := by
  intro s
  have hs : Sound s.entries := (invariant_run ownerOf events).sound
  constructor
  · intro h e he hp ho hr
    obtain ⟨message, hmessage⟩ := h.refuses e he hp ho hr
    by_contra hcaught
    simp only [Caught, not_or, not_exists, not_and, not_not, not_forall] at hcaught
    obtain ⟨hpre, hread, f, hfind, hvalid⟩ := hcaught
    have hlook : readable fs request.canonical := by
      obtain ⟨-, now, hnow, -⟩ := hr
      rw [← hp]
      simp [readable, hnow, Except.isOk, Except.toBool]
    have hok : (s.canonicalizePath (fun _ ↦ fs) owner request).2 = .ok f.path :=
      (canonicalizePath_ok_iff hs hlocal hscheme).mpr
        ⟨hpre, hread, hlook, .inr ⟨f, hfind, hvalid, rfl⟩⟩
    rw [hmessage] at hok
    cases hok
  · intro h
    refine ⟨fun q hq ↦ canonicalizePath_answers hs hlocal hscheme hq, fun e he hp ho hr ↦ ?_⟩
    rcases hresult : (s.canonicalizePath (fun _ ↦ fs) owner request).2 with message | q
    · exact ⟨message, rfl⟩
    · obtain ⟨hpre, hread, -, hfound⟩ := (canonicalizePath_ok_iff hs hlocal hscheme).mp hresult
      exfalso
      rcases h e he hp ho hr with ⟨f, hf, hlex, hstale⟩ | ⟨f, hf, hk, hunread⟩ | hfirst
      · exact hpre f hf hlex hstale
      · exact hunread (hread f hf hk)
      · rcases hfound with ⟨hnone, -⟩ | ⟨f, hsome, hvalid, -⟩
        · have hn := List.find?_eq_none.mp hnone e he
          simp [names, hp] at hn
        · exact hvalid (hfirst f hsome)

/-- A request that spells its directory through a link `/l` to `/d`. -/
def linkRequest : Request := ⟨ascii "/d/a", ascii "/l/a", true, false, none⟩

def directRequest : Request := ⟨ascii "/d/a", ascii "/d/a", true, false, none⟩

/-- Two files are registered, `/d/b` before `/d/a`. -/
def twoFiles : List Event :=
  [.request 1 ⟨ascii "/d/b", ascii "/d/b", true, false, none⟩ fun _ _ ↦ .found true 1 7,
    .request 1 ⟨ascii "/d/a", ascii "/d/a", true, false, none⟩ fun _ _ ↦ .found true 1 8]

/-- `/d/a` has then been replaced by a hard link of `/d/b`. -/
def relinked (p : Path) : Stat :=
  if p ∈ [ascii "/d/a", ascii "/d/b", ascii "/l/a"] then .found true 1 7 else .failed .noent

theorem not_meets_linkRequest :
    ¬ ∀ (ownerOf : Connection → Owner) (events : List Event) (fs : Path → Stat) (owner : Owner)
      (request : Request), request.isLocal → ¬ request.hasScheme →
        Meets (Runs.run (step ownerOf) initial events) fs owner request := by
  intro h
  have hmeets := h (fun _ ↦ 1) twoFiles relinked 2 linkRequest rfl (by decide)
  obtain ⟨message, hmessage⟩ := hmeets.refuses
    ⟨ascii "/d/a", ⟨.regular, 1, 8⟩, [1], []⟩ (by decide) rfl (by decide)
    ⟨rfl, ⟨.regular, 1, 7⟩, rfl, by decide⟩
  have hok : ((Runs.run (step fun _ ↦ 1) initial twoFiles).canonicalizePath (fun _ ↦ relinked) 2
      linkRequest).2 = .ok (ascii "/d/b") := by decide
  rw [hok] at hmessage
  cases hmessage

theorem meets_directRequest :
    Meets (Runs.run (step fun _ ↦ 1) initial twoFiles) relinked 2 directRequest := by
  refine (canonicalizePath_meets_iff (fun _ ↦ 1) twoFiles relinked 2 directRequest rfl
    (by decide)).mpr fun e he hp _ hr ↦ ?_
  exact .inl ⟨e, he, hp, hr.stale⟩

end System

end PdoDuckdb.Filesystem
