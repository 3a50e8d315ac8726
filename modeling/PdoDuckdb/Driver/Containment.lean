import PdoDuckdb.Driver.Profile
import PdoDuckdb.Library.Runs

namespace PdoDuckdb.Driver.Profile

open Library Library.Exits

/-- What the engine is documented to do: a statement that fails changes nothing, and
the helper queries list what is attached and what is loaded. -/
structure Documented {Ω : Type} (E : SandboxEngine Ω) : Prop where
  set : ∀ s w, E.view (E.set s w).2 = if (E.set s w).1 then (E.view w).set s else E.view w
  detach : ∀ name w, E.view (E.detach (appendQuoted name '"'.toUInt8) w).2 =
    if (E.detach (appendQuoted name '"'.toUInt8) w).1 then (E.view w).detach name else E.view w
  listDatabases : ∀ w, E.view (E.listDatabases w).2 = E.view w ∧
    ∀ res, (E.listDatabases w).1 = some res → res.shaped = true → res.failed = false →
      res.rows = (E.view w).attached.map fun d ↦ [some d.name, some d.path]
  listExtensions : ∀ w, E.view (E.listExtensions w).2 = E.view w ∧
    ∀ res, (E.listExtensions w).1 = .rows res → res.shaped = true → res.failed = false →
      res.rows = ((E.view w).loaded.filter fun x ↦ x ∉ containedExtensions).map fun x ↦ [some x]
  clearInstanceWriters : ∀ w, E.view (E.clearInstanceWriters w).2 = E.view w
  clearLocalWriters : ∀ h w, E.view (E.clearLocalWriters h w).2 = E.view w
  connect : ∀ w, E.view (E.connect w).2 = E.view w
  stopQuackListeners : ∀ w, E.view (E.stopQuackListeners w).2 = E.view w
  allocate : ∀ w, E.view (E.allocate w).2 = E.view w
  strdup : ∀ w, E.view (E.strdup w).2 = E.view w

/-- The engine is confined to an `open_basedir`: the settings of the profile, what is
attached or allowed, and what is loaded. -/
structure Contained (inside : List Byte → Bool) (v2 : Bool) (v : View) : Prop where
  settings : ∀ s ∈ profilePreDetach ++ profilePostDetach v2, v.setting s.1 = s.2
  attached : ∀ d ∈ v.attached, inside d.path = true
  loaded : ∀ x ∈ v.loaded, x ∈ containedExtensions
  allowedPaths : ∀ p ∈ v.allowedPaths, inside p = true
  allowedDirectories : v.allowedDirectories = []

section Profiles

variable {inside : List Byte → Bool} {v2 : Bool} {v v' : View} {l : List (Setting × Value)}

theorem foldl_set_attached : (l.foldl View.set v).attached = v.attached := by
  induction l generalizing v with
  | nil => rfl
  | cons s l ih => exact ih

theorem foldl_set_loaded : (l.foldl View.set v).loaded = v.loaded := by
  induction l generalizing v with
  | nil => rfl
  | cons s l ih => exact ih

theorem foldl_set_other {n : Setting} (hn : n ∉ l.map Prod.fst) :
    (l.foldl View.set v).setting n = v.setting n := by
  induction l generalizing v with
  | nil => rfl
  | cons s l ih =>
    rw [List.map_cons, List.mem_cons, not_or] at hn
    rw [List.foldl_cons, ih hn.2]
    exact Function.update_of_ne hn.1 ..

/-- Settings that are each set once are left as they are set. -/
theorem foldl_set_setting (hnodup : (l.map Prod.fst).Nodup) {s : Setting × Value} (hs : s ∈ l) :
    (l.foldl View.set v).setting s.1 = s.2 := by
  induction l generalizing v with
  | nil => cases hs
  | cons t l ih =>
    rw [List.map_cons, List.nodup_cons] at hnodup
    rw [List.foldl_cons]
    rcases List.mem_cons.mp hs with rfl | hs
    · rw [foldl_set_other hnodup.1]
      exact Function.update_self ..
    · exact ih hnodup.2 hs

theorem nodup_profile (v2 : Bool) : ((profilePreDetach ++ profilePostDetach v2).map Prod.fst).Nodup := by
  cases v2 <;> decide

/-- With the temporary directory off, turning external access off allows no more
than the paths of what is attached. -/
theorem foldl_postDetach_allowed (v2 : Bool) (htemp : v.setting .tempDirectory = .emptyText) :
    ((profilePostDetach v2).foldl View.set v).allowedPaths = v.attached.map Database.path ∧
    ((profilePostDetach v2).foldl View.set v).allowedDirectories = [] := by
  cases v2 <;> simp [profilePostDetach, View.set, htemp]

/-- What the statements of the profile make of an engine, when only databases inside
are left attached between its two parts. -/
theorem contained_profile (hloaded : ∀ x ∈ v.loaded, x ∈ containedExtensions)
    (hsetting : v'.setting = (profilePreDetach.foldl View.set v).setting) (hsame : v'.loaded = v.loaded)
    (hattached : ∀ d ∈ v'.attached, inside d.path = true) :
    Contained inside v2 ((profilePostDetach v2).foldl View.set v') := by
  have htemp : v'.setting .tempDirectory = .emptyText := by
    rw [hsetting]
    exact foldl_set_setting (by decide) (s := (.tempDirectory, .emptyText)) (by simp [profilePreDetach])
  obtain ⟨hpaths, hdirectories⟩ := foldl_postDetach_allowed v2 htemp
  have hnodup := nodup_profile v2
  rw [List.map_append, List.nodup_append] at hnodup
  refine ⟨fun s hs ↦ ?_, ?_, ?_, ?_, hdirectories⟩
  · rcases List.mem_append.mp hs with hs | hs
    · rw [foldl_set_other fun hpost ↦ hnodup.2.2 _ (List.mem_map_of_mem hs) _ hpost rfl, hsetting]
      exact foldl_set_setting hnodup.1 hs
    · exact foldl_set_setting hnodup.2.1 hs
  · rw [foldl_set_attached]
    exact hattached
  · rw [foldl_set_loaded, hsame]
    exact hloaded
  · rw [hpaths]
    intro p hp
    obtain ⟨d, hd, rfl⟩ := List.mem_map.mp hp
    exact hattached d hd

theorem Contained.kept (h : Contained inside v2 v) (hkept : v.Kept v') : Contained inside v2 v' := by
  obtain ⟨hsetting, hattached, hloaded, hpaths, hdirectories⟩ := hkept
    (h.settings (.lockConfiguration, .bool true) (by simp [profilePostDetach]))
    (h.settings (.enableExternalAccess, .bool false) (by simp [profilePostDetach]))
  refine ⟨fun s hs ↦ ?_, fun d hd ↦ ?_, fun x hx ↦ h.loaded x (hloaded x hx), fun p hp ↦ h.allowedPaths p (hpaths p hp), ?_⟩
  · rw [hsetting]
    exact h.settings s hs
  · rcases hattached d hd with hd | hd
    · exact h.attached d hd
    · exact h.allowedPaths d.path hd
  · refine List.eq_nil_iff_forall_not_mem.mpr fun d hd ↦ ?_
    exact absurd (hdirectories d hd) (by simp [h.allowedDirectories])

end Profiles

section Steps

variable {Ω α : Type} {E : SandboxEngine Ω} {v : View} {i : Shared} {basedir : List Byte} {v2 : Bool}

def Stands (E : SandboxEngine Ω) (v : View) (i : Shared) (s : State Ω) : Prop :=
  E.view s.world = v ∧ s.shared = i

theorem call_stands {f : Ω → α × Ω} (hf : ∀ w, E.view (f w).2 = E.view w) {R : Bailed → State Ω → Prop} :
    Meets (Stands E v i) (call f) (fun _ ↦ Stands E v i) R :=
  Meets.step fun _ hs ↦ ⟨(hf _).trans hs.1, hs.2⟩

theorem allocate_stands (hE : Documented E) :
    Meets (Stands E v i) (allocate E) (fun _ ↦ Stands E v i) fun _ s ↦ s.shared = i := by
  unfold allocate
  refine Meets.bind (call_stands hE.allocate) fun ok ↦ ?_
  split
  · exact Meets.pure fun s hs ↦ hs
  · exact Meets.exit fun s hs ↦ hs.2

theorem copyCells_stands (hE : Documented E) (cells : List Cell) :
    Meets (Stands E v i) (copyCells E cells) (fun _ ↦ Stands E v i) fun _ s ↦ s.shared = i := by
  induction cells with
  | nil => exact Meets.pure fun s hs ↦ hs
  | cons cell cells ih =>
    cases cell with
    | none => exact ih
    | some bytes =>
      unfold copyCells
      split
      · exact Meets.pure fun s hs ↦ hs
      · exact Meets.bind (allocate_stands hE) fun _ ↦ ih

theorem setAll_stands (hE : Documented E) (l : List (Setting × Value)) :
    Meets (Stands E v i) (setAll E l)
      (fun ok s ↦ s.shared = i ∧ (ok = true → E.view s.world = l.foldl View.set v)) fun _ s ↦ s.shared = i := by
  induction l generalizing v with
  | nil => exact Meets.pure fun s hs ↦ ⟨hs.2, fun _ ↦ hs.1⟩
  | cons t l ih =>
    unfold setAll
    refine Meets.bind (Q := fun ok s ↦ s.shared = i ∧ (ok = true → E.view s.world = v.set t)) ?_ fun ok ↦ ?_
    · refine Meets.step fun s hs ↦ ⟨hs.2, fun hok ↦ ?_⟩
      have hset := hE.set t s.world
      rw [if_pos hok, hs.1] at hset
      exact hset
    · cases ok with
      | true => exact ih.pre fun s hs ↦ ⟨hs.2 rfl, hs.1⟩
      | false => exact Meets.pure fun s hs ↦ ⟨hs.1, fun h ↦ absurd h Bool.false_ne_true⟩

/-- A walk that its callback carries from row to row: when it does not stop, it has
seen every row. -/
theorem walkRows_meets (hE : Documented E) {callback : List Cell → α → Sandbox Ω (Bool × α)}
    {I : List (List Cell) → α → View → Prop} {rows : List (List Cell)}
    (hcallback : ∀ done row rest a v, rows = done ++ row :: rest → I done a v →
      Meets (Stands E v i) (callback row a)
        (fun r s ↦ s.shared = i ∧ (r.1 = true → I (done ++ [row]) r.2 (E.view s.world))) fun _ s ↦ s.shared = i)
    {a : α} (hstart : I [] a v) :
    Meets (Stands E v i) (walkRows E callback rows 0 a)
      (fun w s ↦ s.shared = i ∧ (w.ok = true → w.rows = rows.length ∧ w.nulCell = false ∧
        I rows w.found (E.view s.world)) ∧ (w.nulCell = true → w.ok = false)) fun _ s ↦ s.shared = i := by
  suffices h : ∀ rest done a v, rows = done ++ rest → I done a v →
      Meets (Stands E v i) (walkRows E callback rest done.length a)
        (fun w s ↦ s.shared = i ∧ (w.ok = true → w.rows = rows.length ∧ w.nulCell = false ∧
          I rows w.found (E.view s.world)) ∧ (w.nulCell = true → w.ok = false)) fun _ s ↦ s.shared = i from
    h rows [] a v rfl hstart
  intro rest
  induction rest with
  | nil =>
    intro done a v hrows hI
    rw [List.append_nil] at hrows
    subst hrows
    refine Meets.pure fun s hs ↦ ⟨hs.2, fun _ ↦ ⟨rfl, rfl, ?_⟩, fun h ↦ absurd h Bool.false_ne_true⟩
    rw [hs.1]
    exact hI
  | cons row rest ih =>
    intro done a v hrows hI
    unfold walkRows
    refine Meets.bind (copyCells_stands hE row) fun copied ↦ ?_
    cases copied with
    | false =>
      exact Meets.pure fun s hs ↦ ⟨hs.2, fun h ↦ absurd h Bool.false_ne_true, fun _ ↦ rfl⟩
    | true =>
      refine Meets.bind (hcallback done row rest a v hrows hI) fun next ↦ ?_
      cases hnext : next.1 with
      | false =>
        exact Meets.pure fun s hs ↦ ⟨hs.1, fun h ↦ absurd h Bool.false_ne_true, fun _ ↦ rfl⟩
      | true =>
        rintro s ⟨hs, hinv⟩
        have hrows : rows = (done ++ [row]) ++ rest := by rw [hrows, List.append_assoc, List.singleton_append]
        have hrest := ih (done ++ [row]) next.2 (E.view s.world) hrows (hinv rfl)
        rw [List.length_append, List.length_singleton] at hrest
        exact hrest s ⟨rfl, hs⟩

theorem eachVarcharRow_meets (hE : Documented E) {callback : List Cell → α → Sandbox Ω (Bool × α)}
    {I : List (List Cell) → α → View → Prop} {res : Rows}
    (hcallback : ∀ done row rest a v, res.shaped = true → res.rows = done ++ row :: rest → I done a v →
      Meets (Stands E v i) (callback row a)
        (fun r s ↦ s.shared = i ∧ (r.1 = true → I (done ++ [row]) r.2 (E.view s.world))) fun _ s ↦ s.shared = i)
    {a : α} (hstart : I [] a v) :
    Meets (Stands E v i) (eachVarcharRow E callback a res)
      (fun w s ↦ s.shared = i ∧ (w.ok = true → w.rows = res.rows.length ∧ w.nulCell = false ∧
        I res.rows w.found (E.view s.world) ∧ res.shaped = true ∧ res.failed = false) ∧
        (w.nulCell = true → w.ok = false)) fun _ s ↦ s.shared = i := by
  unfold eachVarcharRow
  split
  · rename_i hshaped
    refine Meets.bind (walkRows_meets hE (fun done row rest a v ↦ hcallback done row rest a v hshaped) hstart) fun w ↦ ?_
    refine Meets.pure fun s ⟨hs, hok, hnul⟩ ↦ ⟨hs, fun h ↦ ?_, fun h ↦ ?_⟩
    · simp only [Bool.and_eq_true, Bool.not_eq_eq_eq_not, Bool.not_true] at h
      obtain ⟨hrows, hfound, hI⟩ := hok h.1
      exact ⟨hrows, hfound, hI, hshaped, h.2⟩
    · rw [hnul h]
      rfl
  · exact Meets.pure fun s hs ↦ ⟨hs.2, fun h ↦ absurd h Bool.false_ne_true, fun h ↦ absurd h Bool.false_ne_true⟩

/-- A failure leaves the instance refused, and nothing recorded that was not. -/
def Failed (i : Shared) (s : State Ω) : Prop :=
  s.shared.sandboxRefusal.isSome ∧ s.shared.sandboxBasedir = i.sandboxBasedir ∧ s.shared.handles = i.handles

theorem Shared.isSome_refuse (i : Shared) (reason : List Byte) : (i.refuse reason).sandboxRefusal.isSome := by
  unfold refuse
  cases i.sandboxRefusal <;> rfl

theorem failed_refuse {s : State Ω} {reason : List Byte} (hs : s.shared = i) :
    Failed i { s with shared := s.shared.refuse reason } := by
  subst hs
  exact ⟨Shared.isSome_refuse _ _, rfl, rfl⟩

theorem Failed.refuse {s : State Ω} {reason : List Byte} (hs : Failed i s) :
    Failed i { s with shared := s.shared.refuse reason } :=
  ⟨Shared.isSome_refuse _ _, hs.2⟩

theorem orRefuse_meets {step next : Sandbox Ω Bool} {reason : List Byte} {P Q : State Ω → Prop}
    {T : Bool → State Ω → Prop} {R : Bailed → State Ω → Prop}
    (hstep : Meets P step (fun ok s ↦ if ok then Q s else s.shared = i ∨ Failed i s) R)
    (hnext : Meets Q next T R) (hT : ∀ s, Failed i s → T false s) :
    Meets P (orRefuse step reason next) T R := by
  unfold orRefuse
  refine Meets.bind hstep fun ok ↦ ?_
  cases ok with
  | true => exact hnext
  | false =>
    refine Meets.bind (Q := fun _ ↦ Failed i) (Meets.step fun s hs ↦ ?_) fun _ ↦ Meets.pure hT
    rcases hs with hs | hs
    · exact failed_refuse hs
    · exact hs.refuse

theorem queryExtensions_stands (hE : Documented E) (retries : ℕ) :
    Meets (Stands E v i) (queryExtensions E retries)
      (fun res s ↦ Stands E v i s ∧ ∀ rows ∈ res, rows.shaped = true → rows.failed = false →
        rows.rows = (v.loaded.filter fun x ↦ x ∉ containedExtensions).map fun x ↦ [some x])
      fun _ s ↦ s.shared = i := by
  have hcall : Meets (Stands E v i) (call E.listExtensions)
      (fun listing s ↦ Stands E v i s ∧ ∀ rows, listing = .rows rows → rows.shaped = true → rows.failed = false →
        rows.rows = (v.loaded.filter fun x ↦ x ∉ containedExtensions).map fun x ↦ [some x])
      fun _ s ↦ s.shared = i := by
    refine Meets.step fun s hs ↦ ⟨⟨(hE.listExtensions s.world).1.trans hs.1, hs.2⟩, ?_⟩
    rw [← hs.1]
    exact (hE.listExtensions s.world).2
  induction retries with
  | zero =>
    refine Meets.bind hcall fun listing ↦ ?_
    cases listing with
    | rows res =>
      refine Meets.pure fun s hs ↦ ⟨hs.1, fun rows hrows ↦ ?_⟩
      obtain rfl := Option.some.inj hrows
      exact hs.2 _ rfl
    | failed race late => exact Meets.pure fun s hs ↦ ⟨hs.1, fun rows hrows ↦ by cases hrows⟩
  | succ retries ih =>
    refine Meets.bind hcall fun listing ↦ ?_
    cases listing with
    | rows res =>
      refine Meets.pure fun s hs ↦ ⟨hs.1, fun rows hrows ↦ ?_⟩
      obtain rfl := Option.some.inj hrows
      exact hs.2 _ rfl
    | failed race late =>
      dsimp only
      split
      · exact ih.pre fun s hs ↦ hs.1
      · exact Meets.pure fun s hs ↦ ⟨hs.1, fun rows hrows ↦ by cases hrows⟩

theorem loadedExtensionRow_stands (hE : Documented E) (row : List Cell) (loaded : List (List Byte) × Bool) :
    Meets (Stands E v i) (loadedExtensionRow E row loaded) (fun _ ↦ Stands E v i) fun _ s ↦ s.shared = i := by
  unfold loadedExtensionRow
  split
  · exact Meets.bind (allocate_stands hE) fun _ ↦ Meets.pure fun s hs ↦ hs
  · exact Meets.pure fun s hs ↦ hs

/-- An instance passes when only extensions are loaded that the profile contains. -/
theorem checkLoadedExtensions_meets (hE : Documented E) :
    Meets (Stands E v i) (checkLoadedExtensions E)
      (fun r s ↦ if r.1 then Stands E v i s ∧ ∀ x ∈ v.loaded, x ∈ containedExtensions else Failed i s)
      fun _ s ↦ s.shared = i := by
  have hrefuse : ∀ reason quack, Meets (fun s : State Ω ↦ s.shared = i)
      (do
        refuse reason
        pure (false, quack))
      (fun (r : Bool × QuackState) s ↦ if r.1 then Stands E v i s ∧ ∀ x ∈ v.loaded, x ∈ containedExtensions
        else Failed i s) fun _ s ↦ s.shared = i := fun reason quack ↦
    Meets.bind (Meets.step (Q := fun _ ↦ Failed i) fun s hs ↦ failed_refuse hs) fun _ ↦ Meets.pure fun s hs ↦ hs
  unfold checkLoadedExtensions
  refine Meets.bind (queryExtensions_stands hE 1000) fun res ↦ ?_
  cases res with
  | none => exact (hrefuse listedReason .unknown).pre fun s hs ↦ hs.1.2
  | some res =>
    rintro s ⟨hs, hres⟩
    refine Meets.bind (eachVarcharRow_meets (I := fun _ _ w ↦ w = v) (v := v) hE ?_ rfl) (fun walk ↦ ?_) s hs
    · rintro done row rest a w _ _ rfl
      exact (loadedExtensionRow_stands hE row a).post fun r s hs ↦ ⟨hs.2, fun _ ↦ hs.1⟩
    split
    · rename_i hok
      split
      · rename_i hrows
        refine Meets.pure fun s ⟨hs, hwalk, _⟩ ↦ ?_
        obtain ⟨hlength, _, hview, hshaped, hfailed⟩ := hwalk hok
        refine ⟨⟨hview, hs⟩, fun x hx ↦ ?_⟩
        have hempty : res.rows = [] := List.length_eq_zero_iff.mp (hlength.symm.trans hrows)
        rw [hres res rfl hshaped hfailed, List.map_eq_nil_iff, List.filter_eq_nil_iff] at hempty
        simpa using hempty x hx
      · exact (hrefuse _ _).pre fun s hs ↦ hs.1
    · exact (hrefuse _ _).pre fun s hs ↦ hs.1

theorem call_failed {f : Ω → α × Ω} {R : Bailed → State Ω → Prop} :
    Meets (Failed i) (call f) (fun _ ↦ Failed i) R :=
  Meets.step fun _ hs ↦ hs

theorem setAll_failed {l : List (Setting × Value)} {R : Bailed → State Ω → Prop} :
    Meets (Failed i) (setAll E l) (fun _ ↦ Failed i) R := by
  induction l with
  | nil => exact Meets.pure fun s hs ↦ hs
  | cons t l ih =>
    refine Meets.bind call_failed fun ok ↦ ?_
    cases ok with
    | true => exact ih
    | false => exact Meets.pure fun s hs ↦ hs

theorem trySet_failed {l : List (Setting × Value)} {R : Bailed → State Ω → Prop} :
    Meets (Failed i) (trySet E l) (fun _ ↦ Failed i) R :=
  Meets.each (I := fun _ ↦ Failed i) fun _ _ _ _ ↦ Meets.bind call_failed fun _ ↦ Meets.pure fun _ hs ↦ hs

theorem containRefused_failed {quack : QuackState} {R : Bailed → State Ω → Prop} :
    Meets (Failed i) (containRefused E v2 quack) (fun _ ↦ Failed i) R := by
  refine Meets.bind ?_ fun _ ↦ Meets.bind trySet_failed fun _ ↦ trySet_failed
  cases quack with
  | absent => exact Meets.pure fun s hs ↦ hs
  | loaded => exact call_failed
  | unknown =>
    refine Meets.bind setAll_failed fun ok ↦ ?_
    cases ok with
    | true => exact call_failed
    | false => exact Meets.pure fun s hs ↦ hs

theorem admitLoadedExtensions_meets (hE : Documented E) :
    Meets (Stands E v i) (admitLoadedExtensions E v2)
      (fun ok s ↦ if ok then Stands E v i s ∧ ∀ x ∈ v.loaded, x ∈ containedExtensions else Failed i s)
      fun _ s ↦ s.shared = i := by
  refine Meets.bind (checkLoadedExtensions_meets hE) fun checked ↦ ?_
  obtain ⟨ok, quack⟩ := checked
  cases ok with
  | true => exact Meets.pure fun s hs ↦ hs
  | false => exact Meets.bind containRefused_failed fun _ ↦ Meets.pure fun s hs ↦ hs

structure Detached (inside : List Byte → Bool) (v : View) (done : List (List Cell)) (w : View) : Prop where
  setting : w.setting = v.setting
  loaded : w.loaded = v.loaded
  attached : ∀ d ∈ w.attached, d ∈ v.attached
  done : ∀ d ∈ w.attached, [some d.name, some d.path] ∈ done → inside d.path = true

theorem Detached.inside {inside : List Byte → Bool} {done : List (List Cell)} {row : List Cell} {w : View}
    (h : Detached inside v done w)
    (hrow : ∀ d ∈ w.attached, row = [some d.name, some d.path] → inside d.path = true) :
    Detached inside v (done ++ [row]) w := by
  refine ⟨h.setting, h.loaded, h.attached, fun d hd hmem ↦ ?_⟩
  rcases List.mem_append.mp hmem with hmem | hmem
  · exact h.done d hd hmem
  · exact hrow d hd (List.mem_singleton.mp hmem).symm

theorem Detached.detach {inside : List Byte → Bool} {done : List (List Cell)} {w : View} {name path : List Byte}
    (h : Detached inside v done w) : Detached inside v (done ++ [[some name, some path]]) (w.detach name) := by
  have hsub : ∀ d ∈ (w.detach name).attached, d ∈ w.attached := fun d hd ↦ (List.mem_filter.mp hd).1
  refine Detached.inside ⟨h.setting, h.loaded, fun d hd ↦ h.attached d (hsub d hd), fun d hd ↦ h.done d (hsub d hd)⟩ ?_
  intro d hd hrow
  obtain rfl : name = d.name := by simpa using congrArg List.head? hrow
  simp [View.detach] at hd

theorem detachRow_meets (hE : Documented E) {done : List (List Cell)} {row : List Cell} {w : View}
    (hw : Detached (E.insideBasedir basedir) v done w) :
    Meets (Stands E w i) (detachRow E basedir row ⟨⟩)
      (fun r s ↦ s.shared = i ∧ (r.1 = true → Detached (E.insideBasedir basedir) v (done ++ [row]) (E.view s.world)))
      fun _ s ↦ s.shared = i := by
  have hpass : ∀ {row : List Cell}, (∀ d ∈ w.attached, row = [some d.name, some d.path] → E.insideBasedir basedir d.path = true) →
      Meets (Stands E w i) (pure (true, ⟨⟩) : Sandbox Ω (Bool × PUnit))
        (fun r s ↦ s.shared = i ∧
          (r.1 = true → Detached (E.insideBasedir basedir) v (done ++ [row]) (E.view s.world)))
        fun _ s ↦ s.shared = i := by
    refine fun hrow ↦ Meets.pure fun s hs ↦ ⟨hs.2, fun _ ↦ ?_⟩
    rw [hs.1]
    exact hw.inside hrow
  unfold detachRow
  split
  · rename_i name path
    split
    · rename_i hpath
      refine hpass fun d _ hrow ↦ absurd ?_ d.nonempty
      rw [hpath] at hrow
      simpa using (congrArg List.getLast? hrow).symm
    refine Meets.bind (allocate_stands hE) fun _ ↦ ?_
    split
    · rename_i hinside
      refine hpass fun d _ hrow ↦ ?_
      obtain rfl : path = d.path := by simpa using congrArg List.getLast? hrow
      exact hinside
    refine Meets.bind (allocate_stands hE) fun _ ↦ Meets.bind (Q := fun ok s ↦ s.shared = i ∧
      (ok = true → E.view s.world = w.detach name)) ?_ fun ok ↦ Meets.pure fun s hs ↦ ⟨hs.1, fun hok ↦ ?_⟩
    · refine Meets.step fun s hs ↦ ⟨hs.2, fun hok ↦ ?_⟩
      have hdetach := hE.detach name s.world
      rw [if_pos hok, hs.1] at hdetach
      exact hdetach
    · rw [hs.2 hok]
      exact hw.detach
  · rename_i hshape
    exact hpass fun d _ hrow ↦ absurd hrow (hshape _ _)

/-- When it does not fail, what is left attached is inside the `open_basedir`. -/
theorem detachOutOfBasedir_meets (hE : Documented E) :
    Meets (Stands E v i) (detachOutOfBasedir E basedir)
      (fun ok s ↦ if ok then s.shared = i ∧ (E.view s.world).setting = v.setting ∧ (E.view s.world).loaded = v.loaded ∧
          ∀ d ∈ (E.view s.world).attached, E.insideBasedir basedir d.path = true
        else s.shared = i ∨ Failed i s)
      fun _ s ↦ s.shared = i := by
  unfold detachOutOfBasedir
  refine Meets.bind (Q := fun res s ↦ Stands E v i s ∧ ∀ rows ∈ res, rows.shaped = true → rows.failed = false →
    rows.rows = v.attached.map fun d ↦ [some d.name, some d.path]) ?_ fun res ↦ ?_
  · refine Meets.step fun s hs ↦ ⟨⟨(hE.listDatabases s.world).1.trans hs.1, hs.2⟩, ?_⟩
    rw [← hs.1]
    exact (hE.listDatabases s.world).2
  cases res with
  | none => exact Meets.pure fun s hs ↦ .inl hs.1.2
  | some res =>
    rintro s ⟨hs, hres⟩
    refine Meets.bind (eachVarcharRow_meets (I := fun done _ w ↦ Detached (E.insideBasedir basedir) v done w) (v := v) hE
      (fun done row rest _ w _ _ hw ↦ detachRow_meets hE hw)
      ⟨rfl, rfl, fun _ hd ↦ hd, fun d _ hmem ↦ absurd hmem List.not_mem_nil⟩) (fun walk ↦ ?_) s hs
    split
    · rename_i hnul
      refine Meets.bind (Q := fun _ s ↦ Failed i s ∧ walk.ok = false)
        (Meets.step fun s hs ↦ ⟨failed_refuse hs.1, hs.2.2 hnul⟩) fun _ ↦ Meets.pure fun s hs ↦ ?_
      rw [hs.2]
      exact .inr hs.1
    · refine Meets.pure fun s ⟨hs, hwalk, _⟩ ↦ ?_
      split
      · rename_i hok
        obtain ⟨_, _, hdetached, hshaped, hfailed⟩ := hwalk hok
        refine ⟨hs, hdetached.setting, hdetached.loaded, fun d hd ↦ hdetached.done d hd ?_⟩
        rw [hres res rfl hshaped hfailed]
        exact List.mem_map.mpr ⟨d, hdetached.attached d hd, rfl⟩
      · exact .inl hs

def Settled (E : SandboxEngine Ω) (v2 : Bool) (basedir : List Byte) (i : Shared) (ok : Bool) (s : State Ω) : Prop :=
  if ok then s.shared = { i with externalAccessDisabled := true, sandboxBasedir := some basedir } ∧
    Contained (E.insideBasedir basedir) v2 (E.view s.world)
  else Failed i s

theorem recordBasedir_meets (hE : Documented E) {R : Bailed → State Ω → Prop} :
    Meets (fun s ↦ s.shared = i ∧ Contained (E.insideBasedir basedir) v2 (E.view s.world)) (recordBasedir E basedir)
      (Settled E v2 basedir i) R := by
  unfold recordBasedir
  refine Meets.bind (Q := fun _ s ↦ s.shared = { i with externalAccessDisabled := true } ∧
    Contained (E.insideBasedir basedir) v2 (E.view s.world)) (Meets.step fun s hs ↦ ⟨by rw [hs.1], hs.2⟩) fun _ ↦ ?_
  refine Meets.bind (Q := fun _ s ↦ s.shared = { i with externalAccessDisabled := true } ∧
    Contained (E.insideBasedir basedir) v2 (E.view s.world)) (Meets.step fun s hs ↦ ⟨hs.1, ?_⟩) fun ok ↦ ?_
  · rw [hE.strdup]
    exact hs.2
  cases ok with
  | true =>
    exact Meets.bind (Q := Settled E v2 basedir i ∘ fun _ ↦ true) (Meets.step fun s hs ↦ ⟨by rw [hs.1], hs.2⟩) fun _ ↦
      Meets.pure fun s hs ↦ hs
  | false =>
    refine Meets.bind (Q := fun _ ↦ Failed i) (Meets.step fun s hs ↦ ?_) fun _ ↦ Meets.pure fun s hs ↦ hs
    exact failed_refuse (i := { i with externalAccessDisabled := true }) hs.1

theorem applyProfile_meets (hE : Documented E) :
    Meets (Stands E v i) (applyProfile E v2 basedir) (Settled E v2 basedir i) fun _ s ↦ s.shared = i := by
  unfold applyProfile
  refine Meets.bind (admitLoadedExtensions_meets hE) fun ok ↦ ?_
  cases ok with
  | false => exact Meets.pure fun s hs ↦ hs
  | true =>
    have hfailed : ∀ s : State Ω, Failed i s → Settled E v2 basedir i false s := fun s hs ↦ hs
    refine Meets.assume (fun s hs ↦ hs.2) fun hloaded ↦ Meets.pre ?_ fun s hs ↦ hs.1
    refine orRefuse_meets (Q := Stands E (profilePreDetach.foldl View.set v) i)
      ((setAll_stands hE _).post fun ok s hs ↦ ?_) ?_ hfailed
    · cases ok with
      | true => exact ⟨hs.2 rfl, hs.1⟩
      | false => exact .inl hs.1
    refine orRefuse_meets (detachOutOfBasedir_meets hE) ?_ hfailed
    rintro s ⟨hs, hsetting, hsame, hattached⟩
    rw [foldl_set_loaded] at hsame
    refine orRefuse_meets (P := Stands E (E.view s.world) i)
      (Q := fun s ↦ s.shared = i ∧ Contained (E.insideBasedir basedir) v2 (E.view s.world))
      ((setAll_stands hE _).post fun ok t ht ↦ ?_) (recordBasedir_meets hE) hfailed s ⟨rfl, hs⟩
    cases ok with
    | true =>
      refine ⟨ht.1, ?_⟩
      rw [ht.2 rfl]
      exact contained_profile hloaded hsetting hsame hattached
    | false => exact .inl ht.1

theorem clearAllLocalWriters_stands (hE : Documented E) {R : Bailed → State Ω → Prop} (handles : List (Option ℕ)) :
    Meets (Stands E v i) (clearAllLocalWriters E handles) (fun _ ↦ Stands E v i) R := by
  induction handles with
  | nil => exact Meets.pure fun s hs ↦ hs
  | cons h handles ih =>
    exact Meets.bind (call_stands (hE.clearLocalWriters h)) fun _ ↦ Meets.bind ih fun _ ↦ Meets.pure fun s hs ↦ hs

/-- A call of the engine that leaves it as it is, as a step of the transition. -/
theorem stands_or {ok : Bool} {s : State Ω} (hs : Stands E v i s) :
    if ok then Stands E v i s else s.shared = i ∨ Failed i s := by
  cases ok with
  | true => exact hs
  | false => exact .inl hs.2

theorem clearInstanceWriters_stands (hE : Documented E) {R : Bailed → State Ω → Prop} :
    Meets (Stands E v i) (clearInstanceWriters E) (fun ok s ↦ if ok then Stands E v i s else Failed i s) R :=
  orRefuse_meets ((call_stands hE.clearInstanceWriters).post fun _ _ hs ↦ stands_or hs)
    (Meets.pure fun _ hs ↦ hs) fun _ hs ↦ hs

theorem disableExternalAccess_meets (hE : Documented E) :
    Meets (Stands E v i) (disableExternalAccess E v2 basedir) (Settled E v2 basedir i) fun _ s ↦ s.shared = i := by
  unfold disableExternalAccess
  refine Meets.bind (clearInstanceWriters_stands hE) fun ok ↦ ?_
  cases ok with
  | false => exact Meets.pure fun s hs ↦ hs
  | true =>
    refine orRefuse_meets ((call_stands hE.connect).post fun _ _ hs ↦ stands_or hs) ?_ fun _ hs ↦ hs
    refine Meets.bind (Q := fun _ ↦ Stands E v i) (Meets.step fun s hs ↦ hs) fun _ ↦ ?_
    exact orRefuse_meets ((clearAllLocalWriters_stands hE _).post fun _ _ hs ↦ stands_or hs)
      (applyProfile_meets hE) fun _ hs ↦ hs

end Steps

section Entries

variable {Ω : Type} {E : SandboxEngine Ω} {v2 : Bool} {basedir : List Byte} {s : State Ω}

theorem enforceSandboxLocked_apply : enforceSandboxLocked E v2 basedir s =
    if s.shared.sandboxRefusal.isSome then (.ok false, s)
    else if basedir = [] then (.ok true, s)
    else if s.shared.externalAccessDisabled then (.ok (decide (s.shared.sandboxBasedir = some basedir)), s)
    else disableExternalAccess E v2 basedir s := by
  change (if s.shared.sandboxRefusal.isSome then _ else _ : Sandbox Ω Bool) s = _
  split_ifs <;> rfl

/-- What an entry under an `open_basedir` makes of an instance. -/
inductive Entered (E : SandboxEngine Ω) (v2 : Bool) (basedir : List Byte) (s : State Ω) : State Ω → Prop
  | refused : s.shared.sandboxRefusal.isSome → Entered E v2 basedir s { s with admitted := none }
  | unbounded : s.shared.sandboxRefusal = none → basedir = [] →
      Entered E v2 basedir s { s with admitted := some basedir }
  | same : s.shared.sandboxRefusal = none → s.shared.sandboxBasedir = some basedir →
      Entered E v2 basedir s { s with admitted := some basedir }
  | other : s.shared.sandboxRefusal = none → s.shared.externalAccessDisabled = true →
      s.shared.sandboxBasedir ≠ some basedir → Entered E v2 basedir s { s with admitted := none }
  | contained {t : State Ω} : s.shared.sandboxRefusal = none → s.shared.externalAccessDisabled = false →
      t.admitted = some basedir → Settled E v2 basedir s.shared true t → Entered E v2 basedir s t
  | failed {t : State Ω} : s.shared.sandboxRefusal = none → s.shared.externalAccessDisabled = false →
      t.admitted = none → Failed s.shared t → Entered E v2 basedir s t

theorem nativeEnter_entered (hE : Documented E) (v2 : Bool) (basedir : List Byte) (s : State Ω) :
    Entered E v2 basedir s (nativeEnter E v2 basedir s).2 := by
  unfold nativeEnter
  rw [enforceSandboxLocked_apply]
  split_ifs with hrefused hbasedir hdisabled
  · exact .refused hrefused
  all_goals rw [Option.not_isSome_iff_eq_none] at hrefused
  · exact .unbounded hrefused hbasedir
  · by_cases hsame : s.shared.sandboxBasedir = some basedir
    · rw [decide_eq_true hsame]
      exact .same hrefused hsame
    · rw [decide_eq_false hsame]
      exact .other hrefused hdisabled hsame
  · rw [Bool.not_eq_true] at hdisabled
    have h : Ends (Settled E v2 basedir s.shared) (fun _ t ↦ t.shared = s.shared) (disableExternalAccess E v2 basedir s) :=
      disableExternalAccess_meets hE s ⟨rfl, rfl⟩
    match disableExternalAccess E v2 basedir s, h with
    | (.ok true, t), h => exact .contained hrefused hdisabled rfl h
    | (.ok false, t), h => exact .failed hrefused hdisabled rfl h
    | (.error _, t), h => exact .failed hrefused hdisabled rfl (failed_refuse h)

end Entries

end PdoDuckdb.Driver.Profile
