import PdoDuckdb.Sql.Literals
import Mathlib.Logic.Function.Basic

namespace PdoDuckdb.Statement.Rounds

open Library.Numbering Sql

/-- `PDO_PARAM_TYPE`; every type the hook has no case of is a string to it. -/
inductive ParamType
  | null | int | str | lob | stmt | bool
deriving DecidableEq, Repr

/-- The value of a parameter: what it is, and what its conversions and reading it as a
stream give. They give nothing where they throw, or where the parameters of the statement
have been exchanged meanwhile. -/
structure Value where
  null : Bool
  resource : Bool
  truth : Option Bool
  long : Option ℤ
  string : Option (List Byte)
  contents : Option (List Byte)
deriving DecidableEq, Repr

/-- `PDO_DUCKDB_LOB_MAX_BYTES`. -/
def lobMaxBytes : ℕ := 67108864

/-- What `pdo_duckdb_stmt_param_hook` binds, if it comes to that. -/
def Value.bound (v : Value) : ParamType → Option Bound
  | .stmt => none
  | .null => some .null
  | .int => if v.null then some .null else v.long.map .integer
  | .bool => if v.null then some .null else v.truth.map .boolean
  | .lob =>
    if v.resource then (v.contents.filter (·.length ≤ lobMaxBytes)).map (.bytes · true)
    else if v.null then some .null else v.string.map (.bytes · true)
  | .str => if v.null then some .null else v.string.map (.bytes · false)

/-- A `pdo_bound_param_data` before an execution, and whether the engine takes its value. -/
structure Parameter where
  paramno : ℤ
  type : ParamType
  value : Value
  accepted : Bool
deriving DecidableEq, Repr

/-- What the calls of `pdo_duckdb_stmt_execute` say: the two admissions by the sandbox, and
whether the connection is remote or has a remote catalog, `none` where asking fails. -/
structure Execution where
  entered : Bool
  remote : Option Bool
  reentered : Bool
deriving DecidableEq, Repr

mutual

/-- A parameter's turn before an execution, and the rounds that user code runs in it. -/
inductive Hook
  | mk (parameter : Parameter) (inner : List Round)

/-- One `PDOStatement::execute()`: the parameters have their turns until one fails, and the
executer runs if none does. A parameter of an unknown name ends it before. -/
inductive Round
  | execute (hooks : List Hook) (execution : Execution)
  | unnormalized

end

/-- What an execution gives the engine: the bindings of the prepared statement, or a text. -/
inductive Handed
  | prepared (bindings : ℕ → Option Bound)
  | text (sql : List Byte)

/-- `pdo_duckdb_stmt`, as far as parameters go. `own` is not in the code: the values bound by
turns that have begun since a round last ended. -/
structure State where
  plan : Plan
  deferred : Bool
  prepared : Option (ℕ → Option Bound)
  slots : List (Option Bound)
  bindsCleared : Bool
  own : List (ℕ × Bound)
  handed : List Handed

namespace State

/-- A statement of the preparer, which prepares nothing where the query is deferred. -/
def initial (plan : Plan) (deferred : Bool) : State where
  plan
  deferred
  prepared := if deferred then none else some fun _ ↦ none
  slots := List.replicate plan.bindingCount none
  bindsCleared := false
  own := []
  handed := []

/-- `pdo_duckdb_stmt_clear_expanded_bindings`. -/
def clearExpanded (s : State) : State := { s with slots := List.replicate s.slots.length none }

/-- `pdo_duckdb_stmt_clear_expanded_bindings` and `duckdb_clear_bindings`. -/
def clear (s : State) : State := { s.clearExpanded with prepared := s.prepared.map fun _ _ ↦ none }

/-- `pdo_duckdb_stmt_bind_failure`. -/
def failed (s : State) : State := { s.clearExpanded with bindsCleared := false, own := [] }

def begin (s : State) : State := if s.bindsCleared then s else { s.clear with bindsCleared := true }

/-- `pdo_duckdb_stmt_store_binding`, where the position has a slot. -/
def store (s : State) (position : ℕ) (b : Bound) : State :=
  match s.plan.bindingSlot position with
  | some slot => { s with slots := s.slots.set slot (some b) }
  | none => s

def bind (s : State) (position : ℕ) (b : Bound) (accepted : Bool) : State × Bool :=
  let s := s.store position b
  if s.deferred then (s, (s.plan.bindingSlot position).isSome)
  else if accepted then
    ({ s with prepared := s.prepared.map fun f ↦ Function.update f (position + 1) (some b) }, true)
  else (s, false)

/-- The rest of `pdo_duckdb_stmt_execute` once the query is deferred or not. -/
def hand (s : State) (reentered : Bool) : State :=
  if s.deferred then
    match s.plan.expand (Sql.bindings s.slots) with
    | .error _ => s.clearExpanded
    | .ok text =>
      if reentered then { s.clearExpanded with handed := s.handed ++ [.text text] } else s.clearExpanded
  else if reentered then
    match s.prepared with
    | some bindings => { s.clearExpanded with handed := s.handed ++ [.prepared bindings] }
    | none => s.clearExpanded
  else s.clearExpanded

/-- `pdo_duckdb_stmt_execute`. -/
def execute (s : State) (e : Execution) : State :=
  let s := { (if s.bindsCleared then s else s.clear) with bindsCleared := false, own := [] }
  if e.entered then
    match e.remote with
    | some remote => { s with deferred := s.deferred || remote }.hand e.reentered
    | none => s
  else s

end State

mutual

/-- The turns of the parameters, and whether all have come to their ends. A turn in which
other rounds have run is of none of them. -/
def runHooks : List Hook → State → State × Bool
  | [], s => (s, true)
  | .mk p inner :: hooks, s =>
    if p.paramno < 0 then (s.failed, false)
    else
      let s := runRounds inner s.begin
      match p.value.bound p.type with
      | none => (s.failed, false)
      | some b =>
        let r := s.bind p.paramno.toNat b p.accepted
        if r.2 then
          runHooks hooks
            { r.1 with own := if inner.isEmpty then s.own ++ [(p.paramno.toNat, b)] else s.own }
        else (r.1.failed, false)

def Round.run : Round → State → State
  | .execute hooks e, s =>
    let r := runHooks hooks s
    if r.2 then r.1.execute e else r.1
  | .unnormalized, s => s.failed

def runRounds : List Round → State → State
  | [], s => s
  | r :: rounds, s => runRounds rounds (r.run s)

end

def latest (own : List (ℕ × Bound)) (position : ℕ) : Option Bound := own.reverse.lookup position

def assigned (plan : Plan) (own : List (ℕ × Bound)) : List (Option Bound) :=
  plan.nativePositions.map fun x ↦ if x.1 < plan.bindingCount then latest own x.1 else none

def Agrees (plan : Plan) (own : List (ℕ × Bound)) : Handed → Prop
  | .prepared bindings => bindings 0 = none ∧ ∀ position, bindings (position + 1) = latest own position
  | .text sql => plan.expand (bindings (assigned plan own)) = .ok sql

section Stores

variable {plan : Plan} {own : List (ℕ × Bound)} {s t : State} {position : ℕ} {b : Bound}

@[simp] theorem latest_nil : latest [] position = none := rfl

theorem latest_snoc (q : ℕ) :
    latest (own ++ [(position, b)]) q = if q = position then some b else latest own q := by
  simp only [latest, List.reverse_append, List.reverse_singleton, List.singleton_append, List.lookup_cons]
  by_cases hq : q = position
  · simp [hq]
  · have hq' : (q == position) = false := by simpa using hq
    simp [hq, hq']

theorem assigned_nil (hcount : plan.nativePositions.length = plan.bindingCount) :
    assigned plan [] = List.replicate plan.bindingCount none := by
  rw [assigned, ← hcount]
  apply List.eq_replicate_iff.mpr
  simp

structure Sound (s : State) : Prop where
  numbered : Numbered s.plan.nativePositions
  count : s.plan.nativePositions.length = s.plan.bindingCount
  length : s.slots.length = s.plan.bindingCount
  ready : s.prepared = none → s.deferred

/-- Once the stores have been cleared they hold the values of the round, all of them. -/
structure Holds (s : State) : Prop extends Sound s where
  idle : s.bindsCleared = false → s.own = []
  slots : s.bindsCleared → s.slots = assigned s.plan s.own
  prepared : s.bindsCleared → s.deferred = false → ∀ f ∈ s.prepared, Agrees s.plan s.own (.prepared f)

theorem bindingSlot_eq_some (h : Numbered plan.nativePositions) {slot : ℕ} :
    plan.bindingSlot position = some slot ↔
      position < plan.bindingCount ∧ plan.nativePositions[slot]? = some (position, slot) := by
  rw [h.getElem?_eq_some, Plan.bindingSlot]
  split_ifs with hp
  · simp [Nat.not_lt.mpr hp]
  · simp [Nat.lt_of_not_le hp]

/-- A store writes the slot of a position, if it has one, and no other. -/
theorem assigned_snoc (h : Numbered plan.nativePositions) :
    assigned plan (own ++ [(position, b)]) =
      (plan.bindingSlot position).elim (assigned plan own) fun slot ↦ (assigned plan own).set slot (some b) := by
  have hother {x : ℕ × ℕ} (hx : x.1 ≠ position) :
      (if x.1 < plan.bindingCount then latest (own ++ [(position, b)]) x.1 else none) =
        if x.1 < plan.bindingCount then latest own x.1 else none := by rw [latest_snoc, if_neg hx]
  cases hslot : plan.bindingSlot position with
  | none =>
    apply List.map_congr_left
    intro x hx
    by_cases hx' : x.1 = position
    · obtain ⟨i, hi⟩ := List.mem_iff_getElem?.mp hx
      have hlookup : plan.nativePositions.lookup x.1 = some x.2 := h.lookup_eq_some.mpr hx
      rw [hx'] at hlookup ⊢
      unfold Plan.bindingSlot at hslot
      split_ifs at hslot with hle
      · rw [if_neg (Nat.not_lt.mpr hle), if_neg (Nat.not_lt.mpr hle)]
      · rw [hslot] at hlookup
        cases hlookup
    · exact hother hx'
  | some slot =>
    obtain ⟨hposition, hget⟩ := (bindingSlot_eq_some h).mp hslot
    apply List.ext_getElem?
    intro i
    obtain ⟨hlt, -⟩ := List.getElem?_eq_some_iff.mp hget
    simp only [assigned, Option.elim_some, List.getElem?_set, List.getElem?_map, List.length_map]
    by_cases hi : slot = i
    · subst hi
      rw [hget, if_pos rfl, if_pos hlt]
      simp [hposition, latest_snoc]
    · rw [if_neg hi]
      cases hx : plan.nativePositions[i]? with
      | none => rfl
      | some x =>
        have hne : x.1 ≠ position := by
          intro heq
          have hfst : (plan.nativePositions.map Prod.fst)[slot]? = (plan.nativePositions.map Prod.fst)[i]? := by
            rw [List.getElem?_map, List.getElem?_map, hget, hx]
            exact congrArg some heq.symm
          exact hi ((List.getElem?_inj (by simpa using hlt) h.keys).mp hfst)
        exact congrArg some (hother hne)

/-- The slot of a position has the value last given to it. -/
theorem assigned_slot (h : Numbered plan.nativePositions) {slot : ℕ} (hslot : plan.bindingSlot position = some slot) :
    (assigned plan own)[slot]? = some (latest own position) := by
  obtain ⟨hposition, hget⟩ := (bindingSlot_eq_some h).mp hslot
  rw [assigned, List.getElem?_map, hget, Option.map_some, if_pos hposition]

theorem State.store_slots (hs : Sound s) (hslots : s.slots = assigned s.plan s.own) :
    (s.store position b).slots = assigned s.plan (s.own ++ [(position, b)]) := by
  rw [assigned_snoc hs.numbered, State.store]
  cases s.plan.bindingSlot position with
  | none => exact hslots
  | some slot => exact congrArg (List.set · slot (some b)) hslots

end Stores

section Turns

variable {s : State} {position : ℕ} {b : Bound} {accepted : Bool}

structure Kept (s t : State) : Prop where
  plan : t.plan = s.plan
  handed : t.handed = s.handed
  deferred : t.deferred = s.deferred

theorem Kept.refl (s : State) : Kept s s := ⟨rfl, rfl, rfl⟩

theorem Sound.clearExpanded (hs : Sound s) : Sound s.clearExpanded :=
  ⟨hs.numbered, hs.count, by simpa [State.clearExpanded] using hs.length, hs.ready⟩

theorem Sound.clear (hs : Sound s) : Sound s.clear :=
  ⟨hs.numbered, hs.count, hs.clearExpanded.length, fun h ↦ hs.ready (Option.map_eq_none_iff.mp h)⟩

theorem Sound.failed (hs : Sound s) : Holds s.failed where
  toSound := ⟨hs.numbered, hs.count, hs.clearExpanded.length, hs.ready⟩
  idle _ := rfl
  slots := Bool.noConfusion
  prepared := Bool.noConfusion

theorem Holds.begin (hs : Holds s) : Holds s.begin ∧ s.begin.bindsCleared ∧ s.begin.own = s.own ∧ Kept s s.begin := by
  unfold State.begin
  split_ifs with hcleared
  · exact ⟨hs, hcleared, rfl, Kept.refl s⟩
  · have hown : s.own = [] := hs.idle (Bool.eq_false_iff.mpr hcleared)
    have hsound := hs.toSound.clear
    refine ⟨⟨⟨hsound.numbered, hsound.count, hsound.length, hsound.ready⟩, Bool.noConfusion, fun _ ↦ ?_, ?_⟩, rfl, rfl, rfl, rfl, rfl⟩
    · change List.replicate s.slots.length none = assigned s.plan s.own
      rw [hown, assigned_nil hs.count, hs.length]
    · intro _ _ f hf
      obtain ⟨g, -, rfl⟩ := Option.map_eq_some_iff.mp hf
      change Agrees s.plan s.own _
      rw [hown]
      exact ⟨rfl, fun _ ↦ rfl⟩

theorem Sound.store (hs : Sound s) : Sound (s.store position b) := by
  unfold State.store
  cases s.plan.bindingSlot position with
  | none => exact hs
  | some slot => exact ⟨hs.numbered, hs.count, by simpa using hs.length, hs.ready⟩

theorem store_kept (s : State) (position : ℕ) (b : Bound) :
    s.store position b = { s with slots := (s.store position b).slots } := by
  unfold State.store
  cases s.plan.bindingSlot position <;> rfl

theorem bind_cases (s : State) (position : ℕ) (b : Bound) (accepted : Bool) :
    ∃ prepared, (s.bind position b accepted).1 = { s with slots := (s.store position b).slots, prepared } ∧
      (prepared = none → s.prepared = none) ∧ ((s.bind position b accepted).2 → s.deferred = false →
        prepared = s.prepared.map fun f ↦ Function.update f (position + 1) (some b)) := by
  unfold State.bind
  rw [store_kept]
  dsimp only
  split_ifs with hdeferred haccepted
  · exact ⟨s.prepared, rfl, id, fun _ h ↦ absurd hdeferred (Bool.eq_false_iff.mp h)⟩
  · exact ⟨_, rfl, Option.map_eq_none_iff.mp, fun _ _ ↦ rfl⟩
  · exact ⟨s.prepared, rfl, id, False.elim⟩

/-- A query that is expanded has no place for a value whose position has no slot. -/
theorem bind_deferred (hdeferred : s.deferred) (hok : (s.bind position b accepted).2) :
    (s.plan.bindingSlot position).isSome := by
  unfold State.bind at hok
  rw [store_kept] at hok
  dsimp only at hok
  rwa [if_pos hdeferred] at hok

theorem Sound.bind (hs : Sound s) (position : ℕ) (b : Bound) (accepted : Bool) :
    Sound (s.bind position b accepted).1 := by
  obtain ⟨prepared, hbind, hnone, -⟩ := bind_cases s position b accepted
  have hstore : Sound (s.store position b) := hs.store
  rw [store_kept] at hstore
  rw [hbind]
  exact ⟨hs.numbered, hs.count, hstore.length, fun h ↦ hs.ready (hnone h)⟩

/-- A turn in which no other round has run gives its value to both stores. -/
theorem Holds.bind (hs : Holds s) (hcleared : s.bindsCleared) (hok : (s.bind position b accepted).2) :
    Holds { (s.bind position b accepted).1 with own := s.own ++ [(position, b)] } := by
  have hsound := hs.toSound.bind position b accepted
  obtain ⟨prepared, hbind, -, hprepared⟩ := bind_cases s position b accepted
  have hslots : (s.store position b).slots = _ := State.store_slots hs.toSound (hs.slots hcleared)
  rw [hbind] at hsound ⊢
  refine ⟨⟨hsound.numbered, hsound.count, hsound.length, hsound.ready⟩, fun h ↦ ?_, fun _ ↦ hslots, fun _ hdeferred f hf ↦ ?_⟩
  · exact absurd hcleared (Bool.eq_false_iff.mp h)
  · obtain rfl := hprepared hok hdeferred
    obtain ⟨g, hg, rfl⟩ := Option.map_eq_some_iff.mp hf
    obtain ⟨hzero, hlatest⟩ := hs.prepared hcleared hdeferred g hg
    refine ⟨?_, fun q ↦ ?_⟩
    · rwa [Function.update_of_ne (Nat.succ_ne_zero position).symm]
    · rw [latest_snoc, ← hlatest q]
      by_cases hq : q = position
      · subst hq
        rw [if_pos rfl, Function.update_self]
      · rw [if_neg hq, Function.update_of_ne (by omega)]

/-- A turn in which other rounds have run leaves the stores to be cleared. -/
theorem Holds.bind_idle (hs : Holds s) (hcleared : s.bindsCleared = false) :
    Holds { (s.bind position b accepted).1 with own := s.own } := by
  have hsound := hs.toSound.bind position b accepted
  obtain ⟨prepared, hbind, -, -⟩ := bind_cases s position b accepted
  rw [hbind] at hsound ⊢
  exact ⟨⟨hsound.numbered, hsound.count, hsound.length, hsound.ready⟩, fun _ ↦ hs.idle hcleared,
    fun h ↦ absurd h (Bool.eq_false_iff.mp hcleared), fun h ↦ absurd h (Bool.eq_false_iff.mp hcleared)⟩

end Turns

section Executions

variable {s t : State} {own : List (ℕ × Bound)}

structure Handing (s t : State) (own : List (ℕ × Bound)) : Prop extends Sound t where
  plan : t.plan = s.plan
  bindsCleared : t.bindsCleared = s.bindsCleared
  values : t.own = s.own
  handed : t.handed = s.handed ∨ ∃ h, t.handed = s.handed ++ [h] ∧ Agrees s.plan own h

theorem Handing.clearExpanded (hs : Sound s) : Handing s s.clearExpanded own :=
  ⟨hs.clearExpanded, rfl, rfl, rfl, .inl rfl⟩

theorem Handing.handed_clearExpanded (hs : Sound s) {h : Handed} (hh : Agrees s.plan own h) :
    Handing s { s.clearExpanded with handed := s.handed ++ [h] } own :=
  have hsound := hs.clearExpanded
  ⟨⟨hsound.numbered, hsound.count, hsound.length, hsound.ready⟩, rfl, rfl, rfl, .inr ⟨h, rfl, hh⟩⟩

/-- By either route the engine gets the values of the round. -/
theorem Sound.hand (hs : Sound s) (hslots : s.slots = assigned s.plan own)
    (hprepared : s.deferred = false → ∀ f ∈ s.prepared, Agrees s.plan own (.prepared f)) (reentered : Bool) :
    Handing s (s.hand reentered) own := by
  unfold State.hand
  by_cases hdeferred : s.deferred
  · rw [if_pos hdeferred, hslots]
    cases hexpand : s.plan.expand (bindings (assigned s.plan own)) with
    | error _ => exact .clearExpanded hs
    | ok text =>
      cases reentered with
      | true => exact .handed_clearExpanded hs hexpand
      | false => exact .clearExpanded hs
  · rw [if_neg hdeferred]
    cases reentered with
    | false => exact .clearExpanded hs
    | true =>
      have hagrees := hprepared (Bool.eq_false_iff.mpr hdeferred)
      cases hprepare : s.prepared with
      | none => exact .clearExpanded hs
      | some f => exact .handed_clearExpanded hs (hagrees f hprepare)

/-- `pdo_duckdb_stmt_execute` hands the engine the values of the round or nothing, and
begins the next round. -/
theorem Holds.execute (hs : Holds s) (e : Execution) :
    Holds (s.execute e) ∧ (s.execute e).plan = s.plan ∧ (s.execute e).bindsCleared = false ∧
      ((s.execute e).handed = s.handed ∨ ∃ h, (s.execute e).handed = s.handed ++ [h] ∧ Agrees s.plan s.own h) := by
  obtain ⟨hbegun, hcleared, hown, hkept⟩ := hs.begin
  have hbegin : { (if s.bindsCleared then s else s.clear) with bindsCleared := false, own := [] } =
      { s.begin with bindsCleared := false, own := [] } := by
    unfold State.begin
    split_ifs <;> rfl
  have hsound (deferred : Bool) : Sound { s.begin with bindsCleared := false, own := [], deferred := s.begin.deferred || deferred } :=
    ⟨hbegun.numbered, hbegun.count, hbegun.length, fun h ↦ by simp [hbegun.ready h]⟩
  have hidle {t : State} (ht : Sound t) (hflag : t.bindsCleared = false) (hown : t.own = []) : Holds t :=
    ⟨ht, fun _ ↦ hown, fun h ↦ absurd h (Bool.eq_false_iff.mp hflag), fun h ↦ absurd h (Bool.eq_false_iff.mp hflag)⟩
  have hwaits : Holds { s.begin with bindsCleared := false, own := [] } :=
    hidle ⟨hbegun.numbered, hbegun.count, hbegun.length, hbegun.ready⟩ rfl rfl
  unfold State.execute
  rw [hbegin]
  dsimp only
  split_ifs with hentered
  · cases hremote : e.remote with
    | none => exact ⟨hwaits, hkept.plan, rfl, .inl hkept.handed⟩
    | some remote =>
      have hslots : s.begin.slots = assigned s.begin.plan s.own := hown ▸ hbegun.slots hcleared
      have hprepared (hdeferred : (s.begin.deferred || remote) = false) (f : ℕ → Option Bound) (hf : f ∈ s.begin.prepared) :
          Agrees s.begin.plan s.own (.prepared f) := by
        have h := hbegun.prepared hcleared (Bool.or_eq_false_iff.mp hdeferred).1 f hf
        rwa [hown] at h
      have hhand := (hsound remote).hand hslots hprepared e.reentered
      refine ⟨hidle hhand.toSound hhand.bindsCleared hhand.values, hhand.plan.trans hkept.plan, hhand.bindsCleared, ?_⟩
      rw [← hkept.handed, ← hkept.plan]
      exact hhand.handed
  · exact ⟨hwaits, hkept.plan, rfl, .inl hkept.handed⟩

end Executions

section Rounds

variable {s : State}

mutual

theorem runHooks_holds : ∀ (hooks : List Hook) {s : State}, Holds s → Holds (runHooks hooks s).1 ∧
    (runHooks hooks s).1.plan = s.plan ∧ ((runHooks hooks s).2 = false → (runHooks hooks s).1.bindsCleared = false)
  | [], s, hs => ⟨hs, rfl, Bool.noConfusion⟩
  | .mk p inner :: hooks, s, hs => by
    obtain ⟨hbegun, hcleared, -, hkept⟩ := hs.begin
    obtain ⟨hinner, hplan, hidle⟩ := runRounds_holds inner hbegun
    have hplan := hplan.trans hkept.plan
    have hfailed {t : State} (ht : Sound t) (hplan : t.plan = s.plan) :
        Holds t.failed ∧ t.failed.plan = s.plan ∧ (false = false → t.failed.bindsCleared = false) :=
      ⟨ht.failed, hplan, fun _ ↦ rfl⟩
    rw [runHooks]
    by_cases hparamno : p.paramno < 0
    · rw [if_pos hparamno]
      exact hfailed hs.toSound rfl
    · rw [if_neg hparamno]
      dsimp only
      cases hbound : p.value.bound p.type with
      | none => exact hfailed hinner.toSound hplan
      | some b =>
        dsimp only
        have hsound := hinner.toSound.bind p.paramno.toNat b p.accepted
        have hbindplan : ((runRounds inner s.begin).bind p.paramno.toNat b p.accepted).1.plan = s.plan := by
          obtain ⟨prepared, hbind, -, -⟩ := bind_cases (runRounds inner s.begin) p.paramno.toNat b p.accepted
          rw [hbind]
          exact hplan
        by_cases hok : ((runRounds inner s.begin).bind p.paramno.toNat b p.accepted).2
        · rw [if_pos hok]
          cases inner with
          | nil =>
            obtain ⟨hrest, hrestplan, hrestidle⟩ := runHooks_holds hooks (hbegun.bind hcleared hok)
            exact ⟨hrest, hrestplan.trans hbindplan, hrestidle⟩
          | cons r inner =>
            obtain ⟨hrest, hrestplan, hrestidle⟩ :=
              runHooks_holds hooks (hinner.bind_idle (hidle (List.cons_ne_nil r inner)))
            exact ⟨hrest, hrestplan.trans hbindplan, hrestidle⟩
        · rw [if_neg hok]
          exact hfailed hsound hbindplan

theorem Round.run_holds : ∀ (r : Round) {s : State}, Holds s →
    Holds (r.run s) ∧ (r.run s).plan = s.plan ∧ (r.run s).bindsCleared = false
  | .unnormalized, s, hs => ⟨hs.toSound.failed, rfl, rfl⟩
  | .execute hooks e, s, hs => by
    obtain ⟨hhooks, hplan, hidle⟩ := runHooks_holds hooks hs
    unfold Round.run
    dsimp only
    split_ifs with hok
    · obtain ⟨hexecute, hexecuteplan, hcleared, -⟩ := hhooks.execute e
      exact ⟨hexecute, hexecuteplan.trans hplan, hcleared⟩
    · exact ⟨hhooks, hplan, hidle (Bool.eq_false_iff.mpr hok)⟩

theorem runRounds_holds : ∀ (rounds : List Round) {s : State}, Holds s → Holds (runRounds rounds s) ∧
    (runRounds rounds s).plan = s.plan ∧ (rounds ≠ [] → (runRounds rounds s).bindsCleared = false)
  | [], s, hs => ⟨hs, rfl, fun h ↦ absurd rfl h⟩
  | r :: rounds, s, hs => by
    obtain ⟨hround, hplan, hcleared⟩ := r.run_holds hs
    obtain ⟨hrest, hrestplan, hrestcleared⟩ := runRounds_holds rounds hround
    refine ⟨hrest, hrestplan.trans hplan, fun _ ↦ ?_⟩
    by_cases hne : rounds = []
    · subst hne
      exact hcleared
    · exact hrestcleared hne

end

def supplied (parameters : List Parameter) : List (ℕ × Bound) :=
  parameters.filterMap fun p ↦ (p.value.bound p.type).map fun b ↦ (p.paramno.toNat, b)

/-- A parameter of a round that has handed its values: the slot of its position, which there is
where the query was deferred before the round, has its value in the text. -/
structure Given (plan : Plan) (deferred : Bool) (parameters : List Parameter) (p : Parameter) : Prop where
  position : 0 ≤ p.paramno
  bound : (p.value.bound p.type).isSome
  slotted : deferred → (plan.bindingSlot p.paramno.toNat).isSome
  filled {slot} : plan.bindingSlot p.paramno.toNat = some slot →
    (assigned plan (supplied parameters))[slot]? = some (latest (supplied parameters) p.paramno.toNat)

/-- Turns in which no other rounds run hand nothing, and give all their values if none fails. -/
theorem runHooks_plain (parameters : List Parameter) (hs : Holds s) :
    (runHooks (parameters.map (.mk · [])) s).1.handed = s.handed ∧
      ((runHooks (parameters.map (.mk · [])) s).2 →
        (runHooks (parameters.map (.mk · [])) s).1.own = s.own ++ supplied parameters ∧
          ∀ p ∈ parameters, 0 ≤ p.paramno ∧ (p.value.bound p.type).isSome ∧
            (s.deferred → (s.plan.bindingSlot p.paramno.toNat).isSome)) := by
  induction parameters generalizing s with
  | nil => exact ⟨rfl, fun _ ↦ ⟨(List.append_nil _).symm, by simp⟩⟩
  | cons p parameters ih =>
    obtain ⟨hbegun, hcleared, hown, hkept⟩ := hs.begin
    rw [List.map_cons, runHooks]
    by_cases hparamno : p.paramno < 0
    · rw [if_pos hparamno]
      exact ⟨rfl, Bool.noConfusion⟩
    · rw [if_neg hparamno, runRounds]
      dsimp only
      cases hbound : p.value.bound p.type with
      | none => exact ⟨hkept.handed, Bool.noConfusion⟩
      | some b =>
        dsimp only
        obtain ⟨prepared, hbind, -, -⟩ := bind_cases s.begin p.paramno.toNat b p.accepted
        have hafter : Kept s (s.begin.bind p.paramno.toNat b p.accepted).1 := by
          rw [hbind]
          exact ⟨hkept.plan, hkept.handed, hkept.deferred⟩
        by_cases hok : (s.begin.bind p.paramno.toNat b p.accepted).2
        · rw [if_pos hok]
          obtain ⟨hresthanded, hrest⟩ := ih (hbegun.bind hcleared hok)
          refine ⟨hresthanded.trans hafter.handed, fun hall ↦ ?_⟩
          obtain ⟨hrestown, hparameters⟩ := hrest hall
          refine ⟨?_, List.forall_mem_cons.mpr ⟨⟨Int.not_lt.mp hparamno, by rw [hbound]; rfl, fun hdeferred ↦ ?_⟩, fun q hq ↦ ?_⟩⟩
          · have hsupplied : supplied (p :: parameters) = (p.paramno.toNat, b) :: supplied parameters := by
              unfold supplied
              rw [List.filterMap_cons, hbound]
              rfl
            rw [hsupplied, ← hown]
            exact hrestown.trans (List.append_assoc s.begin.own [(p.paramno.toNat, b)] (supplied parameters))
          · rw [← hkept.plan]
            exact bind_deferred (hkept.deferred.trans hdeferred) hok
          · obtain ⟨hposition, hsome, hslot⟩ := hparameters q hq
            rw [← hafter.plan, ← hafter.deferred]
            exact ⟨hposition, hsome, hslot⟩
        · rw [if_neg hok]
          exact ⟨hafter.handed, Bool.noConfusion⟩

theorem holds_initial {plan : Plan} (hplan : plan.WellFormed) (deferred : Bool) : Holds (.initial plan deferred) where
  numbered := hplan.positions
  count := hplan.count
  length := List.length_replicate
  ready := by cases deferred <;> simp [State.initial]
  idle _ := rfl
  slots := Bool.noConfusion
  prepared := Bool.noConfusion

/-- After any rounds, whatever has failed in them and whatever others have run in them, a round
gives the engine exactly the values of its own parameters or nothing: to the prepared statement
all of them, and in a text those whose positions have slots, which are all of them where the query
was deferred before. -/
theorem execute_handed {v2 legacyParser : Bool} {sql : List Byte} {plan : Plan}
    (h : Plan.create v2 legacyParser sql = .ok plan) (deferred : Bool) (rounds : List Round)
    (parameters : List Parameter) (e : Execution) :
    ((Round.execute (parameters.map (.mk · [])) e).run (runRounds rounds (.initial plan deferred))).handed =
        (runRounds rounds (.initial plan deferred)).handed ∨
      ∃ handed, ((Round.execute (parameters.map (.mk · [])) e).run (runRounds rounds (.initial plan deferred))).handed =
          (runRounds rounds (.initial plan deferred)).handed ++ [handed] ∧
        Agrees plan (supplied parameters) handed ∧
        ∀ p ∈ parameters, Given plan (runRounds rounds (.initial plan deferred)).deferred parameters p := by
  have hinitial := holds_initial (create_plan_wellFormed h) deferred
  obtain ⟨hs, hplan, hcleared⟩ := runRounds_holds rounds hinitial
  have hown : (runRounds rounds (.initial plan deferred)).own = [] := by
    cases rounds with
    | nil => rfl
    | cons r rounds => exact hs.idle (hcleared (List.cons_ne_nil r rounds))
  obtain ⟨hhanded, hall⟩ := runHooks_plain parameters hs
  obtain ⟨hhooks, hhooksplan, -⟩ := runHooks_holds (parameters.map (.mk · [])) hs
  rw [Round.run]
  by_cases hok : (runHooks (parameters.map (.mk · [])) (runRounds rounds (.initial plan deferred))).2
  · rw [if_pos hok]
    obtain ⟨hsupplied, hparameters⟩ := hall hok
    obtain ⟨-, -, -, hexecute⟩ := hhooks.execute e
    rw [hhooksplan.trans hplan, hsupplied, hown, hhanded] at hexecute
    refine hexecute.imp_right fun ⟨handed, heq, hagrees⟩ ↦ ⟨handed, heq, hagrees, fun p hp ↦ ?_⟩
    obtain ⟨hposition, hbound, hslotted⟩ := hparameters p hp
    rw [hplan] at hslotted
    exact ⟨hposition, hbound, hslotted, assigned_slot hinitial.numbered⟩
  · rw [if_neg hok]
    exact .inl hhanded

def plainValue (n : ℤ) : Value := ⟨false, false, none, some n, none, none⟩

/-- A round whose second parameter fails, and one whose statement is executed in another's turn. -/
def plainRounds : List Round :=
  [.execute [.mk ⟨0, .int, plainValue 7, true⟩ [], .mk ⟨1, .stmt, plainValue 8, true⟩ []] ⟨true, some false, true⟩,
    .execute [.mk ⟨0, .int, plainValue 9, true⟩ [.unnormalized]] ⟨true, some false, true⟩]

/-- A prepared statement, and a deferred one, which takes no value for a position without a slot. -/
theorem execute_handed_plain :
    (∃ handed,
      ((Round.execute [.mk ⟨0, .int, plainValue 5, true⟩ []] ⟨true, some false, true⟩).run
          (runRounds plainRounds (.initial apartPlan false))).handed =
        (runRounds plainRounds (.initial apartPlan false)).handed ++ [handed] ∧
      Agrees apartPlan [(0, .integer 5)] handed) ∧
    (∃ handed,
      ((Round.execute [.mk ⟨0, .int, plainValue 5, true⟩ []] ⟨true, some false, true⟩).run
          (runRounds plainRounds (.initial apartPlan true))).handed =
        (runRounds plainRounds (.initial apartPlan true)).handed ++ [handed] ∧
      Agrees apartPlan [(0, .integer 5)] handed ∧ (apartPlan.bindingSlot 0).isSome) ∧
    ((Round.execute [.mk ⟨0, .int, plainValue 5, true⟩ [], .mk ⟨1, .int, plainValue 6, true⟩ []]
        ⟨true, some false, true⟩).run (.initial apartPlan true)).handed = [] := by
  have hcreate : Plan.create false false (ascii "SELECT ?") = .ok apartPlan := by rfl
  refine ⟨?_, ?_, ?_⟩
  · obtain hnone | ⟨handed, heq, hagrees, -⟩ :=
      execute_handed hcreate false plainRounds [⟨0, .int, plainValue 5, true⟩] ⟨true, some false, true⟩
    · exact absurd (congrArg List.length hnone) (by decide)
    · exact ⟨handed, heq, hagrees⟩
  · obtain hnone | ⟨handed, heq, hagrees, hgiven⟩ :=
      execute_handed hcreate true plainRounds [⟨0, .int, plainValue 5, true⟩] ⟨true, some false, true⟩
    · exact absurd (congrArg List.length hnone) (by decide)
    · exact ⟨handed, heq, hagrees, (hgiven _ (List.mem_singleton_self _)).slotted (by decide)⟩
  · obtain hnone | ⟨handed, -, -, hgiven⟩ :=
      execute_handed hcreate true [] [⟨0, .int, plainValue 5, true⟩, ⟨1, .int, plainValue 6, true⟩] ⟨true, some false, true⟩
    · exact hnone
    · have hslot := (hgiven ⟨1, .int, plainValue 6, true⟩ (by simp)).slotted rfl
      exact absurd hslot (by decide)

end Rounds

end PdoDuckdb.Statement.Rounds
