import PdoDuckdb.Driver.Configuration

namespace PdoDuckdb.Driver

open Byte Library
open Library.Exits (Meets Ends)
open Cells (Zval Heap)
open Value (Key)

section Names

variable {s t : List Byte} {key name : List Byte} {d : Byte} {n : ℕ}

def SameName (s t : List Byte) : Prop := s.map lowercase = t.map lowercase

instance (s t : List Byte) : Decidable (SameName s t) := inferInstanceAs (Decidable (_ = _))

theorem binaryStrcasecmp_eq_zero : binaryStrcasecmp s t = 0 ↔ SameName s t := by
  unfold SameName
  induction s generalizing t with
  | nil => cases t <;> simp [binaryStrcasecmp]
  | cons c s ih =>
    cases t with
    | nil => simp [binaryStrcasecmp]
    | cons d t =>
      rw [binaryStrcasecmp, List.map_cons, List.map_cons, List.cons.injEq]
      by_cases hcd : lowercase c = lowercase d
      · rw [if_neg (not_not.mpr hcd), ih]
        exact ⟨fun h ↦ ⟨hcd, h⟩, And.right⟩
      · rw [if_pos hcd]
        refine ⟨fun h ↦ absurd (UInt8.toNat_inj.mp ?_) hcd, fun h ↦ absurd h.1 hcd⟩
        omega

theorem configKeyMatches_iff : configKeyMatches key name ↔ SameName key name := by
  unfold configKeyMatches
  rw [Bool.and_eq_true, decide_eq_true_iff, decide_eq_true_iff, binaryStrcasecmp_eq_zero]
  refine ⟨And.right, fun h ↦ ⟨?_, h⟩⟩
  have hlength := congrArg List.length h
  rwa [List.length_map, List.length_map] at hlength

theorem sandboxForbidsConfigKey_iff {haveV2 : Bool} :
    sandboxForbidsConfigKey haveV2 key ↔ ∃ name ∈ forbiddenNames haveV2, SameName key name := by
  unfold sandboxForbidsConfigKey
  rw [List.any_eq_true]
  exact exists_congr fun name ↦ and_congr_right fun _ ↦ configKeyMatches_iff

def segments (d : Byte) (s : List Byte) : List (List Byte) := (s.splitOn d).filter (· ≠ [])

theorem segments_delimiter : segments d (d :: s) = segments d s := by
  have h : (d :: s).splitOn d = [] :: s.splitOn d :=
    List.splitOn_append_cons_self_of_not_mem List.not_mem_nil s
  rw [segments, h, List.filter_cons_of_neg (by simp), segments]

theorem segments_append_cons (hs : d ∉ s) (hne : s ≠ []) :
    segments d (s ++ d :: t) = s :: segments d t := by
  rw [segments, List.splitOn_append_cons_self_of_not_mem hs, List.filter_cons_of_pos (by simpa using hne), segments]

theorem segments_eq_singleton (hs : d ∉ s) (hne : s ≠ []) : segments d s = [s] := by
  rw [segments, List.splitOn_eq_singleton hs, List.filter_cons_of_pos (by simpa using hne), List.filter_nil]

theorem segments_dropWhile (d : Byte) (s : List Byte) :
    segments d (s.dropWhile (· = d)) = segments d s := by
  induction s with
  | nil => rfl
  | cons c s ih =>
    rw [List.dropWhile_cons]
    split
    · next hc => rw [ih, of_decide_eq_true hc, segments_delimiter]
    · rfl

/-- A text at the first place of a byte. -/
theorem eq_append_cons_of_mem (hd : d ∈ s) :
    ∃ rest, s.dropWhile (· ≠ d) = d :: rest ∧ s = s.takeWhile (· ≠ d) ++ d :: rest := by
  have hsplit := List.takeWhile_append_dropWhile (p := (· ≠ d)) (l := s)
  match hrest : s.dropWhile (· ≠ d) with
  | [] =>
    have hall := List.dropWhile_eq_nil_iff.mp hrest d hd
    simp at hall
  | e :: rest =>
    have hhead := List.head?_dropWhile_not (· ≠ d) s
    rw [hrest] at hhead
    have hed : e = d := by simpa using hhead
    rw [hrest, hed] at hsplit
    exact ⟨rest, by rw [hed], hsplit.symm⟩

theorem not_mem_takeWhile : d ∉ s.takeWhile (· ≠ d) := by
  intro hd
  simpa using List.mem_takeWhile_imp hd

/-- The tokens of a text are its segments. -/
theorem strtokAll_eq_segments (hn : s.length ≤ n) : strtokAll d n (some s) = segments d s := by
  induction n generalizing s with
  | zero => rw [List.length_eq_zero_iff.mp (Nat.le_zero.mp hn)]; rfl
  | succ n ih =>
    rw [strtokAll, strtokR, ← segments_dropWhile]
    have hhead := List.head?_dropWhile_not (· = d) s
    have hlength := (List.dropWhile_suffix (p := (· = d)) (l := s)).length_le.trans hn
    match hs : s.dropWhile (· = d), hlength, hhead with
    | [], _, _ => rfl
    | c :: s, hlength, hhead =>
      by_cases hd : d ∈ c :: s
      · obtain ⟨rest, hrest, hsplit⟩ := eq_append_cons_of_mem hd
        have hne : (c :: s).takeWhile (· ≠ d) ≠ [] := by
          rw [List.takeWhile_cons_of_pos (by simpa using hhead)]
          exact List.cons_ne_nil _ _
        have hle : rest.length ≤ n := by
          have hsum := congrArg List.length hsplit
          rw [List.length_append, List.length_cons (a := d)] at hsum
          omega
        simp only [hrest]
        rw [ih hle, ← segments_append_cons not_mem_takeWhile hne, ← hsplit]
      · have hrest : (c :: s).dropWhile (· ≠ d) = [] :=
          List.dropWhile_eq_nil_iff.mpr fun e he ↦ decide_eq_true (ne_of_mem_of_not_mem he hd)
        simp only [hrest]
        rw [segments_eq_singleton hd (List.cons_ne_nil c s)]
        cases n <;> rfl

end Names

section Objects

variable {ω : Type} {E : ConfigEngine ω} {e₀ : ω} {held : List Configuration} {h : Configuration}
  {done : List Setting} {s : Option Configuration × ConfigWorld ω} {key value : List Byte}

/-- The engine makes an object and then takes every setting on it, in order. -/
inductive Taken (E : ConfigEngine ω) (e₀ : ω) : List Setting → ω → Prop
  | created {e : ω} : E.createConfig e₀ = (true, e) → Taken E e₀ [] e
  | set {l : List Setting} {o : Setting} {e e' : ω} :
      Taken E e₀ l e → E.setConfig e l o = (true, e') → Taken E e₀ (l ++ [o]) e'

structure Configured (E : ConfigEngine ω) (e₀ : ω) (held : List Configuration) (h : Configuration)
    (done : List Setting) (s : Option Configuration × ConfigWorld ω) : Prop where
  config : s.1 = some h
  objects : s.2.objects.Owes (h :: held)
  settings : s.2.settings h.1 = done
  taken : Taken E e₀ done s.2.engine

def Holds (E : ConfigEngine ω) (e₀ : ω) (held : List Configuration) (done : List Setting)
    (s : Option Configuration × ConfigWorld ω) : Prop :=
  (s.1 = none ∧ done = [] ∧ s.2.objects.Owes held ∧ s.2.engine = e₀) ∨ ∃ h, Configured E e₀ held h done s

def Owned (held : List Configuration) (s : Option Configuration × ConfigWorld ω) : Prop :=
  s.2.objects.Owes (s.1.toList ++ held)

def Left (held : List Configuration) (_ : List Byte) (s : Option Configuration × ConfigWorld ω) : Prop :=
  s.2.objects.Owes held

theorem Configured.owned (hs : Configured E e₀ held h done s) : Owned held s := by
  rw [Owned, hs.config]
  exact hs.objects

theorem Holds.owned (hs : Holds E e₀ held done s) : Owned held s := by
  rcases hs with ⟨hnone, _, howes, _⟩ | ⟨h, hs⟩
  · rwa [Owned, hnone]
  · exact hs.owned

theorem failWith_meets {α : Type} {message : List Byte} {Q : α → Option Configuration × ConfigWorld ω → Prop} :
    Meets (Owned held) (failWith message) Q (Left held) := by
  refine Meets.bind (Q := fun _ s ↦ s.2.objects.Owes held) (Meets.step fun s hs ↦ ?_) fun _ ↦
    Meets.exit fun s hs ↦ hs
  unfold Owned at hs
  match s, hs with
  | (none, _), hs => exact hs
  | (some h, _), hs => exact hs.release

theorem ensureConfig_meets :
    Meets (Holds E e₀ held done) (ensureConfig E) (fun _ s ↦ ∃ h, Configured E e₀ held h done s) (Left held) := by
  refine Meets.bind (Q := fun config s ↦ s.1 = config ∧ Holds E e₀ held done s)
    (Meets.step fun s hs ↦ ⟨rfl, hs⟩) fun config ↦ ?_
  match config with
  | some h =>
    refine Meets.pure fun s ⟨hsome, hs⟩ ↦ hs.resolve_left fun hnone ↦ ?_
    rw [hnone.1] at hsome
    cases hsome
  | none =>
    refine Meets.bind (Q := fun created s ↦
      if created then ∃ h, Configured E e₀ held h done s else s.2.objects.Owes held) (Meets.step ?_) ?_
    · intro s ⟨hnone, hs⟩
      rcases hs with ⟨_, hdone, howes, hengine⟩ | ⟨h, hconfig, _⟩
      · rw [hengine, hdone]
        match he : E.createConfig e₀ with
        | (false, e) => exact howes
        | (true, e) =>
          refine ⟨(s.2.objects.create ()).1, rfl, howes.create (), ?_, .created he⟩
          dsimp only
          rw [Function.update_self]
      · rw [hnone] at hconfig
        cases hconfig
    · intro created
      match created with
      | true => exact Meets.pure fun s hs ↦ hs
      | false => exact Meets.exit fun s hs ↦ hs

/-- A value that the engine takes is the last on the object. -/
theorem setConfig_meets {o : Setting} :
    Meets (fun s ↦ ∃ h, Configured E e₀ held h done s) (setConfig E o)
      (fun taken s ↦ if taken then ∃ h, Configured E e₀ held h (done ++ [o]) s else Owned held s)
      (Left held) := by
  refine Meets.step fun s ⟨h, hconfig, howes, hsettings, htaken⟩ ↦ ?_
  have huse : s.2.objects.use [h] = s.2.objects :=
    howes.use fun h' hh' ↦ by rw [List.mem_singleton.mp hh']; exact List.mem_cons_self
  simp only [hconfig, huse, hsettings]
  match he : E.setConfig s.2.engine done o with
  | (false, e) => exact howes
  | (true, e) =>
    refine ⟨h, rfl, howes, ?_, .set htaken he⟩
    dsimp only
    rw [Function.update_self]

/-- A setting that the driver makes, and the exit where the engine refuses it. -/
theorem setConfig_or_meets {o : Setting} {message : List Byte} :
    Meets (fun s ↦ ∃ h, Configured E e₀ held h done s)
      (do match ← setConfig E o with
        | true => pure ⟨⟩
        | false => failWith message : Configuring ω PUnit)
      (fun _ s ↦ ∃ h, Configured E e₀ held h (done ++ [o]) s) (Left held) := by
  refine Meets.bind setConfig_meets fun taken ↦ ?_
  match taken with
  | true => exact Meets.pure fun s hs ↦ hs
  | false => exact failWith_meets

theorem setOneConfig_meets :
    Meets (fun s ↦ ∃ h, Configured E e₀ held h done s) (setOneConfig E key value)
      (fun _ s ↦ ∃ h, Configured E e₀ held h (done ++ [⟨key, value⟩]) s) (Left held) := by
  unfold setOneConfig
  split
  · exact failWith_meets.pre fun s ⟨h, hs⟩ ↦ hs.owned
  · exact setConfig_or_meets

theorem rejectSandboxConfigKey_meets {haveV2 : Bool} :
    Meets (Holds E e₀ held done) (rejectSandboxConfigKey haveV2 key)
      (fun _ s ↦ sandboxForbidsConfigKey haveV2 key = false ∧ Holds E e₀ held done s) (Left held) := by
  unfold rejectSandboxConfigKey
  split
  · exact failWith_meets.pre fun s hs ↦ hs.owned
  · next hkey => exact Meets.pure fun s hs ↦ ⟨Bool.not_eq_true _ ▸ hkey, hs⟩

theorem applyOption_meets {haveV2 : Bool} :
    Meets (Holds E e₀ held done) (applyOption E haveV2 true key value)
      (fun _ s ↦ sandboxForbidsConfigKey haveV2 key = false ∧ Holds E e₀ held (done ++ [⟨key, value⟩]) s)
      (Left held) :=
  Meets.bind rejectSandboxConfigKey_meets fun _ ↦ Meets.given fun hkey ↦
    Meets.bind ensureConfig_meets fun _ ↦ setOneConfig_meets.post fun _ _ hs ↦ ⟨hkey, .inr hs⟩

theorem applySandboxConfig_meets {haveV2 : Bool} :
    Meets (fun s ↦ ∃ h, Configured E e₀ held h done s) (applySandboxConfig E haveV2)
      (fun _ s ↦ ∃ h, Configured E e₀ held h (done ++ sandboxOptions haveV2) s) (Left held) := by
  refine (Meets.each (I := fun l s ↦ ∃ h, Configured E e₀ held h (done ++ l) s) fun l o _ _ ↦ ?_).pre
    fun s hs ↦ by rwa [List.append_nil]
  rw [← List.append_assoc]
  exact setConfig_or_meets

end Objects

section Sandboxed

variable {ω : Type} {E : ConfigEngine ω} {e₀ : ω} {php : PhpTexts} {H : Heap} {haveV2 : Bool}
  {held : List Configuration} {done : List Setting}

/-- A segment of the DSN tail that names an option: a key that is not empty, and
the value after the first equals sign. -/
structure IsPair (segment : List Byte) (o : Setting) : Prop where
  key : o.name ≠ []
  plain : equals ∉ o.name
  text : segment = o.name ++ equals :: o.value

structure IsEntry (php : PhpTexts) (H : Heap) (entry : Key × Zval) (o : Setting) : Prop where
  key : entry.1 = .name o.name
  value : configScalarToString php H entry.2 = .ok o.value
  nameBytes : 0 ∉ o.name
  valueBytes : 0 ∉ o.value

def Unforbidden (haveV2 : Bool) (l : List Setting) : Prop :=
  ∀ o ∈ l, ∀ name ∈ forbiddenNames haveV2, ¬ SameName o.name name

/-- What the engine has for an option: the names are compared in any case, and
the last value that was set holds. -/
def currentValue (l : List Setting) (name : List Byte) : Option (List Byte) :=
  (l.reverse.find? fun o ↦ SameName o.name name).map Setting.value

def Applied {α : Type} (Asks : α → Setting → Prop) (E : ConfigEngine ω) (e₀ : ω) (haveV2 : Bool)
    (held : List Configuration) (before : List Setting) (l : List α)
    (s : Option Configuration × ConfigWorld ω) : Prop :=
  ∃ options, (List.Forall₂ Asks l options ∧ Unforbidden haveV2 options) ∧
    Holds E e₀ held (before ++ options) s

section Turns

variable {α : Type} {Asks : α → Setting → Prop} {before : List Setting} {l : List α} {a : α} {o : Setting}

theorem unforbidden_append {l l' : List Setting} :
    Unforbidden haveV2 (l ++ l') ↔ Unforbidden haveV2 l ∧ Unforbidden haveV2 l' :=
  List.forall_mem_append

/-- A turn that applies the option that is asked for. -/
theorem applyOption_applied (ha : Asks a o) :
    Meets (Applied Asks E e₀ haveV2 held before l) (applyOption E haveV2 true o.name o.value)
      (fun _ ↦ Applied Asks E e₀ haveV2 held before (l ++ [a])) (Left held) := by
  refine Meets.chosen fun options hoptions ↦ applyOption_meets.post fun _ s ⟨hkey, hs⟩ ↦ ?_
  refine ⟨options ++ [o], ⟨List.rel_append hoptions.1 (.cons ha .nil), ?_⟩, ?_⟩
  · refine unforbidden_append.mpr ⟨hoptions.2, List.forall_mem_singleton.mpr fun name hname hsame ↦ ?_⟩
    rw [sandboxForbidsConfigKey_iff.mpr ⟨name, hname, hsame⟩] at hkey
    cases hkey
  · rwa [← List.append_assoc]

/-- The exit of a turn. -/
theorem failWith_applied {β : Type} {message : List Byte} {Q : β → Option Configuration × ConfigWorld ω → Prop} :
    Meets (Applied Asks E e₀ haveV2 held before l) (failWith message) Q (Left held) :=
  failWith_meets.pre fun _ ⟨_, _, hs⟩ ↦ hs.owned

end Turns

theorem ne_nil_of_mem_segments {d : Byte} {s t : List Byte} (h : t ∈ segments d s) : t ≠ [] := by
  simpa using (List.mem_filter.mp h).2

theorem applyDsnPair_applied {l : List (List Byte)} {segment : List Byte} (hne : segment ≠ []) :
    Meets (Applied IsPair E e₀ haveV2 held [] l) (applyDsnPair E haveV2 true segment)
      (fun _ ↦ Applied IsPair E e₀ haveV2 held [] (l ++ [segment])) (Left held) := by
  unfold applyDsnPair
  split
  · next hpair =>
    obtain ⟨rest, hrest, hsplit⟩ := eq_append_cons_of_mem hpair.1
    refine applyOption_applied (o := ⟨_, _⟩) ⟨fun hnil ↦ ?_, not_mem_takeWhile, ?_⟩
    · rw [show segment.takeWhile (· ≠ equals) = [] from hnil] at hsplit
      exact hpair.2 (congrArg List.head? hsplit)
    · rw [hrest]
      exact hsplit
  · exact failWith_applied

theorem applyConfigEntry_applied {before : List Setting} {l : List (Key × Zval)} {entry : Key × Zval} :
    Meets (Applied (IsEntry php H) E e₀ haveV2 held before l) (applyConfigEntry E php H haveV2 true entry)
      (fun _ ↦ Applied (IsEntry php H) E e₀ haveV2 held before (l ++ [entry])) (Left held) := by
  unfold applyConfigEntry
  match hkey : entry.1 with
  | .index _ => exact failWith_applied
  | .name key =>
    dsimp only
    split
    · exact failWith_applied
    · next hname =>
      match hvalue : configScalarToString php H entry.2 with
      | .error message => exact failWith_applied
      | .ok value =>
        dsimp only
        split
        · exact failWith_applied
        · next hbytes => exact applyOption_applied (o := ⟨key, value⟩) ⟨hkey, hvalue, hname, hbytes⟩

theorem applyDsnOptions_meets {opts : List Byte} :
    Meets (fun s ↦ s.1 = none ∧ s.2.objects.Owes held ∧ s.2.engine = e₀) (applyDsnOptions E haveV2 true opts)
      (fun _ ↦ Applied IsPair E e₀ haveV2 held [] (segments semicolon opts)) (Left held) := by
  unfold applyDsnOptions
  rw [strtokAll_eq_segments (Nat.le_refl _)]
  refine (Meets.each fun l segment rest hl ↦ ?_).pre
    fun s hs ↦ ⟨[], ⟨.nil, fun o ho ↦ absurd ho List.not_mem_nil⟩, .inl ⟨hs.1, rfl, hs.2⟩⟩
  have hmem : segment ∈ segments semicolon opts := by
    rw [hl]
    exact List.mem_append_right l List.mem_cons_self
  exact applyDsnPair_applied (ne_nil_of_mem_segments hmem)

theorem applyDriverOptions_meets {driverOptions : Option Zval} {before : List Setting} :
    Meets (Holds E e₀ held before) (applyDriverOptions E php H haveV2 true driverOptions)
      (fun _ s ↦ ∃ entries, configEntries H driverOptions = some entries ∧
        Applied (IsEntry php H) E e₀ haveV2 held before entries s) (Left held) := by
  unfold applyDriverOptions
  match configEntries H driverOptions with
  | none => exact failWith_meets.pre fun s hs ↦ hs.owned
  | some entries =>
    have hloop : Meets (Applied (IsEntry php H) E e₀ haveV2 held before [])
        (Exits.each (applyConfigEntry E php H haveV2 true) entries)
        (fun _ ↦ Applied (IsEntry php H) E e₀ haveV2 held before entries) (Left held) :=
      Meets.each fun l entry _ _ ↦ applyConfigEntry_applied
    refine (hloop.pre fun s hs ↦ ?_).post fun _ s hs ↦ ⟨entries, rfl, hs⟩
    refine ⟨[], ⟨.nil, fun o ho ↦ absurd ho List.not_mem_nil⟩, ?_⟩
    rwa [List.append_nil]

theorem applySandbox_meets :
    Meets (Holds E e₀ held done) (applySandbox E haveV2 true)
      (fun _ s ↦ ∃ h, Configured E e₀ held h (done ++ sandboxOptions haveV2) s) (Left held) :=
  Meets.bind ensureConfig_meets fun _ ↦ applySandboxConfig_meets

/-- What the user asks for: the options of the DSN tail, and then those of the array. -/
structure Asked (php : PhpTexts) (H : Heap) (dsnOpts : Option (List Byte)) (driverOptions : Option Zval)
    (dsnOptions arrayOptions : List Setting) : Prop where
  dsn : List.Forall₂ IsPair (segments semicolon (dsnOpts.getD [])) dsnOptions
  array : ∃ entries, configEntries H driverOptions = some entries ∧
    List.Forall₂ (IsEntry php H) entries arrayOptions

structure Sandboxed (haveV2 : Bool) (user l : List Setting) : Prop where
  unforbidden : Unforbidden haveV2 user
  settings : l = user ++ sandboxOptions haveV2
  sandbox : ∀ o ∈ sandboxOptions haveV2, currentValue l o.name = some o.value

/-- The names of the sandbox options differ. -/
theorem find?_sandboxOptions (haveV2 : Bool) : ∀ o ∈ sandboxOptions haveV2,
    (sandboxOptions haveV2).reverse.find? (fun o' ↦ SameName o'.name o.name) = some o := by
  cases haveV2 <;> decide

theorem currentValue_sandboxOptions (user : List Setting) {o : Setting} (ho : o ∈ sandboxOptions haveV2) :
    currentValue (user ++ sandboxOptions haveV2) o.name = some o.value := by
  rw [currentValue, List.reverse_append, List.find?_append, find?_sandboxOptions haveV2 o ho]
  rfl

/-- The configuration that is built while `open_basedir` is set. -/
theorem buildConfig_sandboxed {openBasedir : Option (List Byte)} (hbasedir : openBasedir.getD [] ≠ [])
    (dsnOpts : Option (List Byte)) (driverOptions : Option Zval) :
    Meets (fun w ↦ w.objects.Owes held ∧ w.engine = e₀)
      (buildConfig E php H haveV2 openBasedir dsnOpts driverOptions)
      (fun out w ↦ ∃ h dsnOptions arrayOptions, out = some h ∧ w.objects.Owes (h :: held) ∧
        Asked php H dsnOpts driverOptions dsnOptions arrayOptions ∧
        Sandboxed haveV2 (dsnOptions ++ arrayOptions) (w.settings h.1) ∧
        Taken E e₀ (w.settings h.1) w.engine)
      (fun _ w ↦ w.objects.Owes held) := by
  unfold buildConfig
  rw [decide_eq_true hbasedir]
  refine Meets.enclosed (Meets.bind applyDsnOptions_meets fun _ ↦ Meets.chosen fun dsnOptions hdsn ↦
    Meets.bind applyDriverOptions_meets fun _ ↦ Meets.chosen fun entries hentries ↦
    Meets.chosen fun arrayOptions harray ↦ Meets.bind applySandbox_meets fun _ ↦
    Meets.bind (ensureConfig_meets.pre fun s hs ↦ .inr hs) fun _ ↦
    Meets.step fun s ⟨h, hconfig, howes, hsettings, htaken⟩ ↦ ?_)
  refine ⟨h, dsnOptions, arrayOptions, hconfig, howes, ⟨hdsn.1, entries, hentries, harray.1⟩, ?_, ?_⟩
  · exact ⟨unforbidden_append.mpr ⟨hdsn.2, harray.2⟩, hsettings, fun o ho ↦
      hsettings ▸ currentValue_sandboxOptions (dsnOptions ++ arrayOptions) ho⟩
  · rwa [hsettings]

def agreeable : ConfigEngine Unit := ⟨fun e ↦ (true, e), fun e _ _ ↦ (true, e)⟩

/-- Driver options with `["Memory_Limit" => "1GB", "threads" => &4]` for CONFIG. -/
def sampleHeap : Heap where
  table
    | 0 => ⟨[(attrConfig, .array 1)], by decide, by decide⟩
    | _ => ⟨[(.name (ascii "Memory_Limit"), .string (ascii "1GB")), (.name (ascii "threads"), .reference 0)],
        by decide, by decide⟩
  cell _ := .long 4

def sampleBuild : Exits (List Byte) (ConfigWorld Unit) (Option Configuration) :=
  buildConfig agreeable ⟨fun _ ↦ [], fun _ ↦ []⟩ sampleHeap true (some (ascii "/srv"))
    (some (ascii "threads=2;;")) (some (.array 0))

theorem buildConfig_sandboxed_sample :
    (sampleBuild ⟨(), .empty, fun _ ↦ []⟩).1.toOption = some (some (0, ())) ∧
    Meets (fun w ↦ w.objects.Owes [] ∧ w.engine = ()) sampleBuild
      (fun out w ↦ ∃ h dsnOptions arrayOptions, out = some h ∧ w.objects.Owes [h] ∧
        Asked ⟨fun _ ↦ [], fun _ ↦ []⟩ sampleHeap (some (ascii "threads=2;;")) (some (.array 0))
          dsnOptions arrayOptions ∧
        Sandboxed true (dsnOptions ++ arrayOptions) (w.settings h.1) ∧
        Taken agreeable () (w.settings h.1) w.engine)
      (fun _ w ↦ w.objects.Owes []) :=
  ⟨by decide +kernel, buildConfig_sandboxed (by decide) (some (ascii "threads=2;;")) (some (.array 0))⟩

end Sandboxed

end PdoDuckdb.Driver
