import PdoDuckdb.Appenders.Lifecycle
import PdoDuckdb.Library.Custody
import PdoDuckdb.Library.Linked
import PdoDuckdb.Library.Runs

namespace PdoDuckdb.Appenders.Linking

open Library

/-- Address of a `pdo_duckdb_db_handle`. -/
abbrev HandleId := ℕ

abbrev Native := ℕ × Unit

/-- The fields of a `pdo_duckdb_appender` that are about its native state. Its
pointers to its neighbours are kept with those of the others. -/
structure Node where
  H : Option HandleId
  appender : Option Native
  closed : Bool
  colProbes : List Native
deriving DecidableEq, Repr

/-- An object of `pdo_duckdb_appender_new`. -/
def Node.new : Node := ⟨none, none, false, []⟩

def Node.natives (n : Node) : List Native := n.appender.toList ++ n.colProbes

/-- The objects there are, the heads `H->appenders` of the handles that are open,
and the engine's native objects. A write through a freed handle is `stray`. -/
structure State where
  objects : List AppenderId
  nodes : AppenderId → Node
  links : Links AppenderId
  appenders : HandleId → Option (Option AppenderId)
  engine : Custody Unit
  stray : Bool

namespace State

def initial : State := ⟨[], fun _ ↦ .new, ⟨fun _ ↦ none, fun _ ↦ none⟩, fun _ ↦ none, .empty, false⟩

def set (s : State) (a : AppenderId) (n : Node) : State := { s with nodes := Function.update s.nodes a n }

def setHead (s : State) (h : HandleId) (head : Option AppenderId) : State :=
  match s.appenders h with
  | none => { s with stray := true }
  | some _ => { s with appenders := Function.update s.appenders h (some head) }

def head (s : State) (h : HandleId) : Option AppenderId := (s.appenders h).join

/-- `pdo_duckdb_appender_link`. -/
def link (s : State) (a : AppenderId) (h : HandleId) : State :=
  { s.set a { s.nodes a with H := some h } with links := s.links.link (s.head h) a }.setHead h (some a)

/-- `pdo_duckdb_appender_unlink`. -/
def unlink (s : State) (a : AppenderId) : State :=
  match (s.nodes a).H with
  | none => s
  | some h =>
    { s.set a { s.nodes a with H := none } with links := s.links.unlink a }.setHead h (s.links.headWithout (s.head h) a)

/-- `pdo_duckdb_appender_release_native`. -/
def releaseNative (s : State) (a : AppenderId) : State :=
  match (s.nodes a).H with
  | none => s
  | some _ =>
    let s := s.unlink a
    let n := s.nodes a
    { s.set a { n with appender := none, closed := n.closed || n.appender.isSome, colProbes := [] } with
      engine := s.engine.releaseAll n.natives }

/-- The loop of `pdo_duckdb_appenders_release`, for so many turns. -/
def appendersRelease (h : HandleId) : ℕ → State → State
  | 0, s => s
  | turns + 1, s =>
    match s.head h with
    | none => s
    | some a => appendersRelease h turns (s.releaseNative a)

/-- `pdo_duckdb_appender_free`, after which the object is gone. -/
def free (s : State) (a : AppenderId) : State :=
  let s := s.releaseNative a
  { s.set a .new with objects := s.objects.erase a }

def adopt (s : State) (a : AppenderId) (h : HandleId) : State :=
  let (native, engine) := s.engine.create ()
  State.link { s.set a { s.nodes a with appender := some native, closed := false } with engine := engine } a h

/-- `pdo_duckdb_appender_prepare_probe` for a column. -/
def addProbe (s : State) (a : AppenderId) : State :=
  let (native, engine) := s.engine.create ()
  { s.set a { s.nodes a with colProbes := (s.nodes a).colProbes ++ [native] } with engine := engine }

def addProbes (s : State) (a : AppenderId) : ℕ → State
  | 0 => s
  | n + 1 => (s.addProbe a).addProbes a n

def close (s : State) (a : AppenderId) : State := s.set a { s.nodes a with closed := true }

end State

/-- How `pdo_duckdb_appender_create_impl` ends once there is an object: out of memory
before anything native; refused by the sandbox; without a native appender, or with
one that only tells the error; at a column; after some probes, by an exception or
out of memory; or well. -/
inductive Creation
  | stopped
  | refused
  | failed (native : Bool)
  | column
  | thrown (probes : ℕ)
  | bailout (probes : ℕ)
  | created (probes : ℕ)
deriving DecidableEq, Repr

namespace State

/-- `pdo_duckdb_appender_create_impl`. -/
def create (s : State) (a : AppenderId) (h : HandleId) (o : Creation) : State :=
  let s := { s with objects := a :: s.objects }
  match o with
  | .stopped => s
  | .refused | .failed false => s.free a
  | .failed true =>
    let (native, engine) := s.engine.create ()
    { s with engine := engine.release native }.free a
  | .column => ((s.adopt a h).close a).free a
  | .thrown probes => ((s.adopt a h).addProbes a probes).free a
  | .bailout probes | .created probes => (s.adopt a h).addProbes a probes

/-- `duckdb_handle_closer`, as far as the appenders go. -/
def closeHandle (s : State) (h : HandleId) : State :=
  let s := appendersRelease h s.objects.length s
  { s with appenders := Function.update s.appenders h none }

end State

/-- `close` is for an appender that is closed or has failed. -/
inductive Event
  | connect (h : HandleId)
  | create (a : AppenderId) (h : HandleId) (o : Creation)
  | close (a : AppenderId)
  | free (a : AppenderId)
  | disconnect (h : HandleId)
deriving DecidableEq, Repr

/-- Addresses are given out where nothing lives, and what runs or is freed lives. -/
def Admits (s : State) : Event → Prop
  | .connect h => s.appenders h = none
  | .create a h _ => a ∉ s.objects ∧ (s.appenders h).isSome
  | .close a => a ∈ s.objects
  | .free a => a ∈ s.objects
  | .disconnect h => (s.appenders h).isSome

instance (s : State) (e : Event) : Decidable (Admits s e) := by
  cases e <;> unfold Admits <;> infer_instance

def step (s : State) : Event → State
  | .connect h => { s with appenders := Function.update s.appenders h (some none) }
  | .create a h o => s.create a h o
  | .close a => s.close a
  | .free a => s.free a
  | .disconnect h => s.closeHandle h

def Listed (s : State) (h : HandleId) (head : Option AppenderId) (l : List AppenderId) : Prop :=
  s.links.Lists head l ∧ l.Nodup ∧ ∀ a, a ∈ l ↔ (s.nodes a).H = some h

/-- The invariant: every open handle has a list, an appender is in one while it has
native objects, and what the engine has is what the appenders hold. -/
structure Sound (s : State) : Prop where
  distinct : s.objects.Nodup
  gone : ∀ a, a ∉ s.objects → s.nodes a = .new
  lists : ∀ h head, s.appenders h = some head → ∃ l, Listed s h head l
  opened : ∀ a h, (s.nodes a).H = some h → (s.appenders h).isSome
  linked : ∀ a, (s.nodes a).H.isSome ↔ (s.nodes a).appender.isSome
  probes : ∀ a, (s.nodes a).H = none → (s.nodes a).colProbes = []
  owes : s.engine.Owes (s.objects.flatMap (Node.natives ∘ s.nodes))
  stray : s.stray = false

theorem Sound.initial : Sound .initial where
  distinct := List.nodup_nil
  gone := fun _ _ ↦ rfl
  lists := fun _ _ h ↦ by cases h
  opened := fun _ _ h ↦ by cases h
  linked := fun _ ↦ Iff.rfl
  probes := fun _ _ ↦ rfl
  owes := Custody.owes_empty
  stray := rfl

section Operations

variable {s : State} {a b : AppenderId} {h h' : HandleId} {head : Option AppenderId} {l : List AppenderId}

theorem Sound.natives_eq (hs : Sound s) (hnone : (s.nodes a).H = none) : (s.nodes a).natives = [] := by
  have happender : (s.nodes a).appender = none := by
    rw [← Option.not_isSome_iff_eq_none, ← hs.linked a, hnone]
    decide
  rw [Node.natives, happender, hs.probes a hnone]
  rfl

theorem Sound.mem_objects (hs : Sound s) (hlinked : (s.nodes a).H = some h) : a ∈ s.objects := by
  by_contra ha
  rw [hs.gone a ha] at hlinked
  cases hlinked

theorem Sound.exists_head (hs : Sound s) (hlinked : (s.nodes a).H = some h) : ∃ head, s.appenders h = some head :=
  Option.isSome_iff_exists.mp (hs.opened a h hlinked)

/-- What the change of one node does to what the appenders hold. -/
theorem natives_update (n : Node) :
    Node.natives ∘ Function.update s.nodes a n = Function.update (Node.natives ∘ s.nodes) a n.natives :=
  Function.comp_update ..

/-- The list of another handle is left alone when the nodes and links of one change. -/
theorem Listed.other {s' : State} (hl : Listed s h' head l)
    (hnodes : ∀ c ∈ l, s'.links.prev c = s.links.prev c ∧ s'.links.next c = s.links.next c)
    (hH : ∀ c, (s'.nodes c).H = some h' ↔ (s.nodes c).H = some h') : Listed s' h' head l :=
  ⟨Links.Segment.congr hl.1 hnodes, hl.2.1, fun c ↦ (hl.2.2 c).trans (hH c).symm⟩

theorem releaseNative_eq (hlinked : (s.nodes a).H = some h) (hhead : s.appenders h = some head) :
    s.releaseNative a = { s with
      nodes := Function.update s.nodes a ⟨none, none, (s.nodes a).closed || (s.nodes a).appender.isSome, []⟩
      links := s.links.unlink a
      appenders := Function.update s.appenders h (some (s.links.headWithout head a))
      engine := s.engine.releaseAll (s.nodes a).natives } := by
  simp [State.releaseNative, State.unlink, State.setHead, State.set, State.head, hlinked, hhead, Node.natives]

theorem Listed.released (hlinked : (s.nodes a).H = some h) (hhead : s.appenders h = some head)
    (hl : Listed s h head l) : Listed (s.releaseNative a) h (s.links.headWithout head a) (l.erase a) := by
  obtain ⟨hlists, hnodup, hmem⟩ := hl
  rw [releaseNative_eq hlinked hhead]
  refine ⟨hlists.unlink hnodup ((hmem a).mpr hlinked), hnodup.erase a, fun c ↦ ?_⟩
  rw [hnodup.mem_erase_iff, hmem c]
  by_cases hca : c = a
  · subst hca
    simp
  · simp [hca]

theorem Sound.releaseNative (hs : Sound s) (a : AppenderId) : Sound (s.releaseNative a) := by
  cases hlinked : (s.nodes a).H with
  | none => rwa [State.releaseNative, hlinked]
  | some h =>
    obtain ⟨head, hhead⟩ := hs.exists_head hlinked
    obtain ⟨l, hl⟩ := hs.lists h head hhead
    have hreleased := hl.released hlinked hhead
    have ha := hs.mem_objects hlinked
    rw [releaseNative_eq hlinked hhead] at hreleased ⊢
    refine ⟨hs.distinct, fun c hc ↦ ?_, fun h' head' hhead' ↦ ?_, fun c h' hc ↦ ?_, fun c ↦ ?_, fun c hc ↦ ?_, ?_, hs.stray⟩
    · exact (Function.update_of_ne (ne_of_mem_of_not_mem ha hc).symm ..).trans (hs.gone c hc)
    · dsimp only at hhead'
      by_cases hh : h' = h
      · subst hh
        rw [Function.update_self] at hhead'
        obtain rfl := Option.some.inj hhead'
        exact ⟨l.erase a, hreleased⟩
      · rw [Function.update_of_ne hh] at hhead'
        obtain ⟨l', hl'⟩ := hs.lists h' head' hhead'
        -- the neighbours of the appender are in its own list
        have hfar {c : AppenderId} (hc : c ∈ l') : a ≠ c ∧ c ∉ l := by
          have hcH := (hl'.2.2 c).mp hc
          refine ⟨fun hac ↦ hh ?_, fun hcl ↦ hh ?_⟩
          · rw [← hac, hlinked] at hcH
            exact (Option.some.inj hcH).symm
          · rw [(hl.2.2 c).mp hcl] at hcH
            exact (Option.some.inj hcH).symm
        have hmem := (hl.2.2 a).mpr hlinked
        refine ⟨l', hl'.other (fun c hc ↦ ⟨?_, ?_⟩) fun c ↦ ?_⟩
        · exact Links.unlink_prev_other (hfar hc).1 fun hn ↦ (hfar hc).2 (hl.1.mem_of_neighbour hmem (.inr hn))
        · exact Links.unlink_next_other (hfar hc).1 fun hp ↦ (hfar hc).2 (hl.1.mem_of_neighbour hmem (.inl hp))
        · by_cases hca : c = a
          · subst hca
            simp [hlinked, Ne.symm hh]
          · simp [hca]
    · dsimp only at hc ⊢
      by_cases hh : h' = h
      · simp [hh]
      · by_cases hca : c = a
        · simp [hca] at hc
        · rw [Function.update_of_ne hca] at hc
          rw [Function.update_of_ne hh]
          exact hs.opened c h' hc
    · by_cases hca : c = a
      · simp [hca]
      · simpa [hca] using hs.linked c
    · by_cases hca : c = a
      · simp [hca]
      · simp only [Function.update_of_ne hca] at hc ⊢
        exact hs.probes c hc
    · rw [natives_update]
      exact (hs.owes.perm (Custody.flatMap_perm hs.distinct ha)).releaseAll

theorem releaseNative_H (hs : Sound s) (a c : AppenderId) (h : HandleId) :
    ((s.releaseNative a).nodes c).H = some h ↔ c ≠ a ∧ (s.nodes c).H = some h := by
  cases hlinked : (s.nodes a).H with
  | none =>
    rw [State.releaseNative, hlinked]
    refine ⟨fun hc ↦ ⟨fun hca ↦ ?_, hc⟩, fun hc ↦ hc.2⟩
    rw [hca, hlinked] at hc
    cases hc
  | some h' =>
    obtain ⟨head, hhead⟩ := hs.exists_head hlinked
    rw [releaseNative_eq hlinked hhead]
    by_cases hca : c = a <;> simp [hca]

theorem releaseNative_objects (hs : Sound s) (a : AppenderId) : (s.releaseNative a).objects = s.objects := by
  cases hlinked : (s.nodes a).H with
  | none => rw [State.releaseNative, hlinked]
  | some h =>
    obtain ⟨head, hhead⟩ := hs.exists_head hlinked
    rw [releaseNative_eq hlinked hhead]

/-- A node changes, but not the handle it is linked to. -/
theorem Sound.set (hs : Sound s) (ha : a ∈ s.objects) (n : Node) (engine : Custody Unit) (hH : n.H = (s.nodes a).H)
    (hlinked : n.H.isSome ↔ n.appender.isSome) (hprobes : n.H = none → n.colProbes = [])
    (howes : engine.Owes (s.objects.flatMap (Function.update (Node.natives ∘ s.nodes) a n.natives))) :
    Sound { s.set a n with engine := engine } := by
  have hsame (c : AppenderId) : (Function.update s.nodes a n c).H = (s.nodes c).H := by
    by_cases hca : c = a
    · rw [hca, Function.update_self, hH]
    · rw [Function.update_of_ne hca]
  refine ⟨hs.distinct, fun c hc ↦ ?_, fun h head hhead ↦ ?_, fun c h hc ↦ ?_, fun c ↦ ?_, fun c hc ↦ ?_, ?_, hs.stray⟩
  · exact (Function.update_of_ne (ne_of_mem_of_not_mem ha hc).symm ..).trans (hs.gone c hc)
  · obtain ⟨l, hl⟩ := hs.lists h head hhead
    exact ⟨l, hl.other (fun _ _ ↦ ⟨rfl, rfl⟩) fun c ↦ by rw [← hsame c]; rfl⟩
  · exact hs.opened c h ((hsame c).symm.trans hc)
  · by_cases hca : c = a
    · simpa [State.set, hca] using hlinked
    · simpa [State.set, hca] using hs.linked c
  · by_cases hca : c = a
    · subst hca
      simp only [State.set, Function.update_self] at hc ⊢
      exact hprobes hc
    · simp only [State.set, Function.update_of_ne hca] at hc ⊢
      exact hs.probes c hc
  · rw [State.set, natives_update]
    exact howes

theorem Sound.close (hs : Sound s) (ha : a ∈ s.objects) : Sound (s.close a) := by
  refine hs.set ha { s.nodes a with closed := true } s.engine rfl (hs.linked a) (hs.probes a) ?_
  have hnatives : ({ s.nodes a with closed := true } : Node).natives = (Node.natives ∘ s.nodes) a := rfl
  rw [hnatives, Function.update_eq_self]
  exact hs.owes

theorem Sound.addProbe (hs : Sound s) (ha : a ∈ s.objects) (hlinked : (s.nodes a).H.isSome) : Sound (s.addProbe a) := by
  refine hs.set ha { s.nodes a with colProbes := (s.nodes a).colProbes ++ [(s.engine.create ()).1] } _ rfl
    (hs.linked a) (fun h ↦ ?_) ((hs.owes.create ()).perm ?_)
  · rw [show (s.nodes a).H = none from h] at hlinked
    cases hlinked
  · refine List.Perm.trans ?_ (Custody.flatMap_update_perm hs.distinct ha _).symm
    refine ((Custody.flatMap_perm hs.distinct ha).cons _).trans ?_
    rw [← List.cons_append]
    refine List.Perm.append_right _ ?_
    rw [Node.natives, ← List.append_assoc]
    exact (List.perm_append_singleton ..).symm

/-- A new object. -/
theorem Sound.object (hs : Sound s) (ha : a ∉ s.objects) : Sound { s with objects := a :: s.objects } := by
  refine ⟨List.nodup_cons.mpr ⟨ha, hs.distinct⟩, fun c hc ↦ hs.gone c (List.not_mem_of_not_mem_cons hc), hs.lists, hs.opened,
    hs.linked, hs.probes, ?_, hs.stray⟩
  rw [List.flatMap_cons, Function.comp_apply, hs.gone a ha]
  exact hs.owes

/-- An object without native state is gone. -/
theorem Sound.erase (hs : Sound s) (ha : a ∈ s.objects) (hnone : (s.nodes a).H = none) :
    Sound { s.set a .new with objects := s.objects.erase a } := by
  have hset := hs.set ha .new s.engine hnone.symm Iff.rfl (fun _ ↦ rfl) ?_
  · refine ⟨hs.distinct.erase a, fun c hc ↦ ?_, hset.lists, hset.opened, hset.linked, hset.probes, ?_, hs.stray⟩
    · by_cases hca : c = a
      · rw [hca]
        exact Function.update_self ..
      · exact hset.gone c fun hmem ↦ hc ((List.mem_erase_of_ne hca).mpr hmem)
    · have hnew : (s.set a .new).nodes a = .new := Function.update_self ..
      refine hset.owes.perm (((List.perm_cons_erase ha).flatMap_right _).trans (.of_eq ?_))
      change Node.natives ((s.set a .new).nodes a) ++ _ = _
      rw [hnew]
      rfl
  · rw [show Node.new.natives = (Node.natives ∘ s.nodes) a from (hs.natives_eq hnone).symm, Function.update_eq_self]
    exact hs.owes

theorem Sound.free (hs : Sound s) (ha : a ∈ s.objects) : Sound (s.free a) := by
  refine (hs.releaseNative a).erase (by rwa [releaseNative_objects hs]) ?_
  rw [Option.eq_none_iff_forall_ne_some]
  exact fun h hH ↦ ((releaseNative_H hs a a h).mp hH).1 rfl

theorem adopt_eq (hhead : s.appenders h = some head) : s.adopt a h = { s with
    nodes := Function.update s.nodes a ⟨some h, some (s.engine.create ()).1, false, (s.nodes a).colProbes⟩
    links := s.links.link head a
    appenders := Function.update s.appenders h (some (some a))
    engine := (s.engine.create ()).2 } := by
  simp [State.adopt, State.link, State.setHead, State.set, State.head, hhead]

theorem adopt_linked (a : AppenderId) (hhead : s.appenders h = some head) :
    ((s.adopt a h).nodes a).H = some h ∧ (s.adopt a h).objects = s.objects := by
  rw [adopt_eq hhead]
  simp

theorem Sound.adopt (hs : Sound s) (ha : a ∈ s.objects) (hnone : (s.nodes a).H = none)
    (hhead : s.appenders h = some head) : Sound (s.adopt a h) := by
  obtain ⟨l, hlists, hnodup, hmem⟩ := hs.lists h head hhead
  have hal : a ∉ l := fun hal ↦ by rw [hmem a, hnone] at hal; cases hal
  rw [adopt_eq hhead]
  refine ⟨hs.distinct, fun c hc ↦ ?_, fun h' head' hhead' ↦ ?_, fun c h' hc ↦ ?_, fun c ↦ ?_, fun c hc ↦ ?_, ?_, hs.stray⟩
  · exact (Function.update_of_ne (ne_of_mem_of_not_mem ha hc).symm ..).trans (hs.gone c hc)
  · dsimp only at hhead'
    by_cases hh : h' = h
    · subst hh
      rw [Function.update_self] at hhead'
      obtain rfl := Option.some.inj hhead'
      refine ⟨a :: l, hlists.link hnodup hal, List.nodup_cons.mpr ⟨hal, hnodup⟩, fun c ↦ ?_⟩
      by_cases hca : c = a
      · simp [hca]
      · simpa [hca] using hmem c
    · rw [Function.update_of_ne hh] at hhead'
      obtain ⟨l', hl'⟩ := hs.lists h' head' hhead'
      refine ⟨l', hl'.other (fun c hc ↦ ?_) fun c ↦ ?_⟩
      · have hcH := (hl'.2.2 c).mp hc
        refine Links.link_other (fun hac ↦ ?_) fun hc ↦ hh ?_
        · rw [← hac, hnone] at hcH
          cases hcH
        · subst hc
          rw [(hmem c).mp hlists.first_mem] at hcH
          exact (Option.some.inj hcH).symm
      · by_cases hca : c = a
        · simp [hca, hnone, Ne.symm hh]
        · simp [hca]
  · dsimp only at hc ⊢
    by_cases hh : h' = h
    · simp [hh]
    · rw [Function.update_of_ne hh]
      by_cases hca : c = a
      · simp [hca, Ne.symm hh] at hc
      · rw [Function.update_of_ne hca] at hc
        exact hs.opened c h' hc
  · by_cases hca : c = a
    · simp [hca]
    · simpa [hca] using hs.linked c
  · by_cases hca : c = a
    · simp [hca] at hc
    · simp only [Function.update_of_ne hca] at hc ⊢
      exact hs.probes c hc
  · rw [natives_update]
    refine (hs.owes.create ()).perm ?_
    have hempty := hs.natives_eq hnone
    have hfill := Custody.flatMap_fill_perm (f := Node.natives ∘ s.nodes) hs.distinct ha hempty [(s.engine.create ()).1]
    rw [Node.natives, hs.probes a hnone]
    exact hfill.symm

theorem addProbe_H (s : State) (a : AppenderId) : ((s.addProbe a).nodes a).H = (s.nodes a).H := by
  simp [State.addProbe, State.set]

theorem Sound.addProbes (hs : Sound s) (ha : a ∈ s.objects) (hlinked : (s.nodes a).H.isSome) (n : ℕ) :
    Sound (s.addProbes a n) ∧ a ∈ (s.addProbes a n).objects := by
  induction n generalizing s with
  | zero => exact ⟨hs, ha⟩
  | succ n ih => exact ih (hs.addProbe ha hlinked) ha (by rwa [addProbe_H])

/-- Enough turns release every appender of a handle. -/
theorem Sound.appendersRelease (hs : Sound s) (hhead : s.appenders h = some head) (hl : Listed s h head l) {turns : ℕ}
    (hturns : l.length ≤ turns) :
    Sound (State.appendersRelease h turns s) ∧ ∀ a, ((State.appendersRelease h turns s).nodes a).H ≠ some h := by
  induction turns generalizing s head l with
  | zero =>
    have hnil := List.eq_nil_of_length_eq_zero (Nat.le_zero.mp hturns)
    refine ⟨hs, fun a ha ↦ ?_⟩
    have hmem := (hl.2.2 a).mpr ha
    rw [hnil] at hmem
    cases hmem
  | succ turns ih =>
    have hs_head : s.head h = head := by rw [State.head, hhead, Option.join_some]
    unfold State.appendersRelease
    rw [hs_head]
    cases head with
    | none =>
      refine ⟨hs, fun a ha ↦ ?_⟩
      rw [← hl.2.2 a] at ha
      cases l with
      | nil => cases ha
      | cons b l => cases hl.1.1
    | some a =>
      have ha := hl.1.first_mem
      have hlinked := (hl.2.2 a).mp ha
      refine ih (hs.releaseNative a) ?_ (hl.released hlinked hhead) ?_
      · rw [releaseNative_eq hlinked hhead]
        exact Function.update_self ..
      · rw [List.length_erase_of_mem ha]
        exact Nat.sub_le_of_le_add hturns

theorem Sound.closeHandle (hs : Sound s) (hopen : (s.appenders h).isSome) :
    Sound (s.closeHandle h) := by
  obtain ⟨head, hhead⟩ := Option.isSome_iff_exists.mp hopen
  obtain ⟨l, hl⟩ := hs.lists h head hhead
  have hlength : l.length ≤ s.objects.length :=
    (List.subperm_of_subset hl.2.1 fun a ha ↦ hs.mem_objects ((hl.2.2 a).mp ha)).length_le
  obtain ⟨hreleased, hnone⟩ := hs.appendersRelease hhead hl hlength
  refine ⟨hreleased.distinct, hreleased.gone, fun h' head' hhead' ↦ ?_, fun a h' ha ↦ ?_, hreleased.linked,
    hreleased.probes, hreleased.owes, hreleased.stray⟩
  · by_cases hh : h' = h
    · simp [State.closeHandle, hh] at hhead'
    · simp only [State.closeHandle, Function.update_of_ne hh] at hhead'
      exact hreleased.lists h' head' hhead'
  · have hh : h' ≠ h := fun hh ↦ hnone a (hh ▸ ha)
    simp only [State.closeHandle, Function.update_of_ne hh]
    exact hreleased.opened a h' ha

theorem Sound.connect (hs : Sound s) (hfree : s.appenders h = none) :
    Sound { s with appenders := Function.update s.appenders h (some none) } := by
  have hnone (a : AppenderId) : (s.nodes a).H ≠ some h := fun ha ↦ by
    have hopen := hs.opened a h ha
    rw [hfree] at hopen
    cases hopen
  refine ⟨hs.distinct, hs.gone, fun h' head' hhead' ↦ ?_, fun a h' ha ↦ ?_, hs.linked, hs.probes, hs.owes, hs.stray⟩
  · dsimp only at hhead'
    by_cases hh : h' = h
    · subst hh
      rw [Function.update_self] at hhead'
      obtain rfl := Option.some.inj hhead'
      exact ⟨[], rfl, List.nodup_nil, fun a ↦ ⟨fun ha ↦ (by cases ha), fun ha ↦ absurd ha (hnone a)⟩⟩
    · rw [Function.update_of_ne hh] at hhead'
      exact hs.lists h' head' hhead'
  · have hh : h' ≠ h := fun hh ↦ hnone a (hh ▸ ha)
    dsimp only
    rw [Function.update_of_ne hh]
    exact hs.opened a h' ha

theorem Sound.create (hs : Sound s) (ha : a ∉ s.objects) (hopen : (s.appenders h).isSome) (o : Creation) :
    Sound (s.create a h o) := by
  obtain ⟨head, hhead⟩ := Option.isSome_iff_exists.mp hopen
  have hobject := hs.object ha
  have hmem : a ∈ a :: s.objects := List.mem_cons_self
  have hnone : (s.nodes a).H = none := by rw [hs.gone a ha]; rfl
  have hadopted := hobject.adopt hmem hnone hhead
  obtain ⟨hlinked, hobjects⟩ := adopt_linked (s := { s with objects := a :: s.objects }) a hhead
  have hadopted_mem : a ∈ (State.adopt { s with objects := a :: s.objects } a h).objects := by
    rw [hobjects]
    exact hmem
  have hprobed (probes : ℕ) := hadopted.addProbes hadopted_mem (Option.isSome_of_eq_some hlinked) probes
  cases o with
  | stopped => exact hobject
  | refused => exact hobject.free hmem
  | failed native =>
    cases native with
    | false => exact hobject.free hmem
    | true =>
      -- the native appender that tells the error is destroyed at once
      have htold := (hs.object ha).owes.create ()
      refine Sound.free ⟨hobject.distinct, hobject.gone, hobject.lists, hobject.opened, hobject.linked, hobject.probes,
        htold.release, hobject.stray⟩ hmem
  | column => exact (hadopted.close hadopted_mem).free hadopted_mem
  | thrown probes => exact (hprobed probes).1.free (hprobed probes).2
  | bailout probes => exact (hprobed probes).1
  | created probes => exact (hprobed probes).1

theorem Sound.step (hs : Sound s) {e : Event} (he : Admits s e) : Sound (Linking.step s e) := by
  cases e with
  | connect h => exact hs.connect he
  | create a h o => exact hs.create he.1 he.2 o
  | close a => exact hs.close he
  | free a => exact hs.free he
  | disconnect h => exact hs.closeHandle he

theorem Sound.run (hs : Sound s) {events : List Event} (h : Runs.Guarded Linking.step Admits s events) :
    Sound (Runs.run Linking.step s events) :=
  h.invariant (fun _ _ hs he ↦ hs.step he) hs

/-- In every state of a run the invariant holds; and once every handle is closed, no
native object is left. -/
theorem run_linked {events : List Event} (h : Runs.Guarded Linking.step Admits .initial events) :
    Sound (Runs.run Linking.step .initial events) ∧
    ((∀ h, (Runs.run Linking.step .initial events).appenders h = none) →
      (Runs.run Linking.step .initial events).engine.live = []) := by
  have hs := Sound.initial.run h
  refine ⟨hs, fun hclosed ↦ ?_⟩
  have hnone (a : AppenderId) : ((Runs.run Linking.step .initial events).nodes a).H = none := by
    rw [Option.eq_none_iff_forall_ne_some]
    intro h ha
    have hopen := hs.opened a h ha
    rw [hclosed h] at hopen
    cases hopen
  have hempty : (Runs.run Linking.step .initial events).objects.flatMap
      (Node.natives ∘ (Runs.run Linking.step .initial events).nodes) = [] :=
    List.flatMap_eq_nil_iff.mpr fun a _ ↦ hs.natives_eq (hnone a)
  have hlive := hs.owes.live
  rw [hempty] at hlive
  exact hlive.eq_nil

/-- Two appenders of one handle and one of another, released in another order. -/
def crossedRun : List Event :=
  [.connect 0, .connect 1, .create 5 0 (.created 2), .create 6 1 (.created 0), .create 7 0 (.bailout 1),
    .create 8 0 (.thrown 1), .close 7, .free 5, .disconnect 0, .free 6, .disconnect 1]

theorem run_linked_crossed : Sound (Runs.run Linking.step .initial crossedRun) ∧
    (Runs.run Linking.step .initial crossedRun).engine = ⟨8, [], 0⟩ :=
  have hrun : Runs.Guarded Linking.step Admits .initial crossedRun :=
    .cons (by decide) <| .cons (by decide) <| .cons (by decide) <| .cons (by decide) <| .cons (by decide) <|
    .cons (by decide) <| .cons (by decide) <| .cons (by decide) <| .cons (by decide) <| .cons (by decide) <|
    .cons (by decide) <| .nil _
  ⟨(run_linked hrun).1, by rfl⟩

end Operations

end PdoDuckdb.Appenders.Linking
