import PdoDuckdb.Entries.Locks

namespace PdoDuckdb.Entries

open Library
open Driver (Address)
open Library.Exits (Meets)

section Rows

/-- A cell of a row: null, one with a NUL byte that ends the walk, or a copy. -/
def copyCell : Run (Option PUnit) := do
  if ← ask then pure none
  else if ← ask then pure (some ⟨⟩)
  else do
    allocate .rowWalk
    pure none

def walkRow (cells : ℕ) (callback : Run Bool) : Run (Option PUnit) := do
  match ← Exits.turns copyCell cells with
  | some _ => pure (some ⟨⟩)
  | none =>
    if ← callback then pure none
    else pure (some ⟨⟩)

def walkChunk (cells : ℕ) (callback : Run Bool) : Run (Option PUnit) := do
  let chunk ← create .chunk
  let rows ← choose
  let stopped ← Exits.turns (walkRow cells callback) rows
  act (World.destroy (some chunk))
  pure stopped

/-- `pdo_duckdb_each_varchar_row`. -/
def eachVarcharRow (cells : ℕ) (callback : Run Bool) : Run Bool := do
  if ← ask then do
    let chunks ← choose
    match ← Exits.turns (walkChunk cells callback) chunks with
    | none => ask
    | some _ => pure false
  else pure false

/-- `pdo_duckdb_query_ok`. -/
def queryOk : Run Bool := do
  let res ← produce .result
  act (World.destroy res.1)
  pure res.2

/-- `pdo_duckdb_detach_row`. -/
def detachRow : Run Bool := do
  if ← ask then pure true
  else do
    -- `php_check_open_basedir_ex`
    allocate .rowWalk
    if ← ask then pure true
    else do
      allocate .rowWalk
      queryOk

/-- `pdo_duckdb_detach_out_of_basedir`. -/
def detachOutOfBasedir : Run Bool := do
  let res ← produce .result
  if res.2 then do
    let ok ← eachVarcharRow 2 detachRow
    act (World.destroy res.1)
    pure ok
  else do
    act (World.destroy res.1)
    pure false

/-- `pdo_duckdb_loaded_extension_row`. -/
def loadedExtensionRow : Run Bool := do
  if ← ask then pure true
  else do
    allocate .rowWalk
    pure true

/-- `pdo_duckdb_query_extensions`, with so many retries left. -/
def queryExtensions : ℕ → Run (Option Handle × Bool)
  | 0 => produce .result
  | retries + 1 => do
    let res ← produce .result
    if res.2 then pure res
    else if ← ask then do
      act (World.destroy res.1)
      queryExtensions retries
    else pure res

/-- `pdo_duckdb_check_loaded_extensions`. -/
def checkLoadedExtensions : Run Bool := do
  let res ← queryExtensions 1000
  if res.2 then do
    let listed ← eachVarcharRow 1 loadedExtensionRow
    act (World.destroy res.1)
    if listed then ask
    else pure false
  else do
    act (World.destroy res.1)
    pure false

end Rows

section Profile

/-- A row of `quack_server_list()`. -/
def stopListener : Run (Option PUnit) := do
  if ← ask then do
    let stopped ← produce .result
    act (World.destroy stopped.1)
    pure none
  else pure none

def stopListeners : Run (Option PUnit) := do
  let chunk ← create .chunk
  let rows ← choose
  let _ ← Exits.turns stopListener rows
  act (World.destroy (some chunk))
  pure none

def stopAllListeners (prepared : Bool) : Run PUnit := do
  if prepared then do
    let chunks ← choose
    let _ ← Exits.turns stopListeners chunks
  else pure ⟨⟩

/-- `pdo_duckdb_stop_quack_listeners`. -/
def stopQuackListeners : Run PUnit := do
  let res ← produce .result
  let shape ← ask
  if res.2 && shape then do
    let stop ← produce .prepared
    stopAllListeners stop.2
    act (World.destroy stop.1)
    act (World.destroy res.1)
  else act (World.destroy res.1)

def profileOk (statements : ℕ) : Run Bool := do
  let failed ← Exits.turns (do
    if ← queryOk then pure none
    else pure (some PUnit.unit)) statements
  pure failed.isNone

def profileAll (statements : ℕ) : Run (Option PUnit) :=
  Exits.turns (do
    let _ ← queryOk
    pure none) statements

/-- The length of `pdo_duckdb_profile_pre_detach`. -/
def preDetach : ℕ := 3

/-- The length of `pdo_duckdb_profile_post_detach`. -/
def postDetach (haveV2 : Bool) : ℕ := if haveV2 then 14 else 13

/-- The part of `pdo_duckdb_contain_refused` on the listeners. -/
def stopRefusedListeners : Run PUnit := do
  if ← ask then stopQuackListeners
  else if ← ask then
    if ← profileOk 2 then stopQuackListeners
    else pure ⟨⟩
  else pure ⟨⟩

/-- `pdo_duckdb_contain_refused`. -/
def containRefused (haveV2 : Bool) : Run PUnit := do
  stopRefusedListeners
  let _ ← profileAll preDetach
  let _ ← profileAll (postDetach haveV2)

/-- `pdo_duckdb_admit_loaded_extensions`. -/
def admitLoadedExtensions (haveV2 : Bool) : Run Bool := do
  if ← checkLoadedExtensions then pure true
  else do
    containRefused haveV2
    pure false

/-- `pdd_bridge_clear_instance_writers` or `pdd_bridge_clear_local_writers`. -/
def clearWriters : Run Bool := bridgeOk

def clearLocalWriters : ℕ → Run Bool
  | 0 => pure true
  | n + 1 => do
    let ok ← clearWriters
    let rest ← clearLocalWriters n
    pure (ok && rest)

/-- `pdo_duckdb_apply_instance_sandbox`. -/
def applyInstanceSandbox (haveV2 : Bool) : Run Bool := do
  let members ← choose
  -- the inspector is one more
  if ← clearLocalWriters (members + 1) then
    if ← admitLoadedExtensions haveV2 then
      if ← profileOk preDetach then
        if ← detachOutOfBasedir then
          if ← profileOk (postDetach haveV2) then ask
          else pure false
        else pure false
      else pure false
    else pure false
  else pure false

/-- `pdo_duckdb_disable_external_access`. -/
def disableExternalAccess (haveV2 : Bool) : Run Bool := do
  if ← clearWriters then
    if ← ask then do
      let inspect ← create .connection
      let allowed ← Exits.guarded (applyInstanceSandbox haveV2) (World.destroy (some inspect))
      act (World.destroy (some inspect))
      pure allowed
    else pure false
  else pure false

/-- `pdo_duckdb_enforce_sandbox_locked`. -/
def enforceSandboxLocked (haveV2 : Bool) (i : Option Address) : Run Bool := do
  let refused ← ask
  if i.isNone || refused then pure false
  -- without `open_basedir`
  else if ← ask then pure true
  else if ← ask then disableExternalAccess haveV2
  else ask

/-- `pdo_duckdb_native_enter`. -/
def nativeEnter (haveV2 : Bool) (i : Option Address) : Run Bool := do
  act (World.acquire i)
  let allowed ← Exits.guarded (enforceSandboxLocked haveV2 i) (World.release i)
  if allowed then pure true
  else do
    act (World.release i)
    pure false

/-- `pdo_duckdb_native_cleanup_enter`. -/
def nativeCleanupEnter (i : Option Address) : Run PUnit := do
  act (World.acquire i)
  -- with `open_basedir`
  if ← ask then do
    let _ ← clearWriters
    let _ ← clearWriters
  else pure ⟨⟩

/-- `pdo_duckdb_sandbox_error`. -/
def sandboxError (i : Option Address) : Run PUnit := do
  act (World.acquire i)
  act (World.release i)

end Profile

section Specs

variable {α β : Type} {base l : List Handle} {L : Lock} {o : Owner} {i : Option Address}
  {R : Bailout → World → Prop} {f : Run α} {g : α → Run β} {n : ℕ} {haveV2 : Bool}

/-- A run that gives back all that it makes, and does not bail out. -/
def Quiet (f : Run α) : Prop :=
  ∀ base L o l R, Meets (At base L o l) f (fun _ ↦ At base L o l) R

/-- The same, but it may bail out in a walk over rows. -/
def Walks (L : Lock) (f : Run α) : Prop :=
  ∀ base o l, Meets (At base L o l) f (fun _ ↦ At base L o l) fun e w ↦ e = .rowWalk ∧ w.lock = L

theorem Quiet.walks (hf : Quiet f) : Walks L f := fun base o l ↦ hf base L o l _

theorem quiet_pure (a : α) : Quiet (pure a) := fun _ _ _ _ _ ↦ Meets.pure fun _ hw ↦ hw

theorem quiet_ask : Quiet ask := fun _ _ _ _ _ ↦ ask_meets

theorem quiet_choose : Quiet choose := fun _ _ _ _ _ ↦ choose_meets

theorem Quiet.bind (hf : Quiet f) (hg : ∀ a, Quiet (g a)) : Quiet (f >>= g) :=
  fun base L o l R ↦ Meets.bind (hf base L o l R) fun a ↦ hg a base L o l R

theorem Walks.bind (hf : Walks L f) (hg : ∀ a, Walks L (g a)) : Walks L (f >>= g) :=
  fun base o l ↦ Meets.bind (hf base o l) fun a ↦ hg a base o l

theorem Quiet.turns {turn : Run (Option α)} (h : Quiet turn) : Quiet (Exits.turns turn n) := by
  intro base L o l R
  refine (Meets.turns (Q := fun _ ↦ At base L o l) ((h base L o l R).post ?_)).post ?_
  · intro r w hw
    cases r <;> exact hw
  · intro r w hw
    cases r <;> exact hw

theorem Walks.turns {turn : Run (Option α)} (h : Walks L turn) : Walks L (Exits.turns turn n) := by
  intro base o l
  refine (Meets.turns (Q := fun _ ↦ At base L o l) ((h base o l).post ?_)).post ?_
  · intro r w hw
    cases r <;> exact hw
  · intro r w hw
    cases r <;> exact hw

theorem walks_allocate : Walks L (allocate .rowWalk) := fun _ _ _ ↦
  allocate_meets fun _ hw ↦ ⟨rfl, hw.lock⟩

/-- A local is given back. -/
theorem destroy_meets {h : Option Handle} :
    Meets (At base L o (h.toList ++ l)) (act (World.destroy h)) (fun _ ↦ At base L o l) R :=
  act_meets fun _ hw ↦ hw.destroy

theorem walks_copyCell : Walks L copyCell := by
  refine quiet_ask.walks.bind fun null ↦ ?_
  split
  · exact (quiet_pure _).walks
  · refine quiet_ask.walks.bind fun nul ↦ ?_
    split
    · exact (quiet_pure _).walks
    · exact walks_allocate.bind fun _ ↦ (quiet_pure _).walks

theorem walks_walkRow {callback : Run Bool} (h : Walks L callback) : Walks L (walkRow n callback) := by
  refine walks_copyCell.turns.bind fun stopped ↦ ?_
  match stopped with
  | some _ => exact (quiet_pure _).walks
  | none =>
    refine h.bind fun more ↦ ?_
    split <;> exact (quiet_pure _).walks

theorem walks_walkChunk {callback : Run Bool} (h : Walks L callback) :
    Walks L (walkChunk n callback) := by
  intro base o l
  refine Meets.bind create_meets fun chunk ↦ ?_
  refine Meets.bind choose_meets fun rows ↦ ?_
  refine Meets.bind ((walks_walkRow h).turns base o (chunk :: l)) fun stopped ↦ ?_
  exact Meets.bind (destroy_meets (h := some chunk)) fun _ ↦ Meets.pure fun w hw ↦ hw

theorem walks_eachVarcharRow {callback : Run Bool} (h : Walks L callback) :
    Walks L (eachVarcharRow n callback) := by
  refine quiet_ask.walks.bind fun shape ↦ ?_
  split
  · refine quiet_choose.walks.bind fun chunks ↦ (walks_walkChunk h).turns.bind fun stopped ↦ ?_
    match stopped with
    | none => exact quiet_ask.walks
    | some _ => exact (quiet_pure _).walks
  · exact (quiet_pure _).walks

theorem quiet_queryOk : Quiet queryOk := fun _ _ _ _ _ ↦
  Meets.bind produce_meets fun _ ↦ Meets.bind destroy_meets fun _ ↦ Meets.pure fun _ hw ↦ hw

theorem walks_detachRow : Walks L detachRow := by
  refine quiet_ask.walks.bind fun nothing ↦ ?_
  split
  · exact (quiet_pure _).walks
  · refine walks_allocate.bind fun _ ↦ quiet_ask.walks.bind fun inside ↦ ?_
    split
    · exact (quiet_pure _).walks
    · exact walks_allocate.bind fun _ ↦ quiet_queryOk.walks

theorem walks_detachOutOfBasedir : Walks L detachOutOfBasedir := by
  intro base o l
  refine Meets.bind produce_meets fun res ↦ ?_
  split
  · refine Meets.bind (walks_eachVarcharRow walks_detachRow base o _) fun ok ↦ ?_
    exact Meets.bind destroy_meets fun _ ↦ Meets.pure fun _ hw ↦ hw
  · exact Meets.bind destroy_meets fun _ ↦ Meets.pure fun _ hw ↦ hw

theorem walks_loadedExtensionRow : Walks L loadedExtensionRow := by
  refine quiet_ask.walks.bind fun null ↦ ?_
  split
  · exact (quiet_pure _).walks
  · exact walks_allocate.bind fun _ ↦ (quiet_pure _).walks

theorem queryExtensions_meets :
    Meets (At base L o l) (queryExtensions n) (fun r ↦ At base L o (r.1.toList ++ l)) R := by
  induction n with
  | zero => exact produce_meets
  | succ n ih =>
    refine Meets.bind produce_meets fun res ↦ ?_
    split
    · exact Meets.pure fun _ hw ↦ hw
    · refine Meets.bind ask_meets fun again ↦ ?_
      split
      · exact Meets.bind destroy_meets fun _ ↦ ih
      · exact Meets.pure fun _ hw ↦ hw

theorem walks_checkLoadedExtensions : Walks L checkLoadedExtensions := by
  intro base o l
  refine Meets.bind queryExtensions_meets fun res ↦ ?_
  split
  · refine Meets.bind (walks_eachVarcharRow walks_loadedExtensionRow base o _) fun listed ↦ ?_
    refine Meets.bind destroy_meets fun _ ↦ ?_
    split
    · exact ask_meets
    · exact Meets.pure fun _ hw ↦ hw
  · exact Meets.bind destroy_meets fun _ ↦ Meets.pure fun _ hw ↦ hw

theorem quiet_stopListener : Quiet stopListener := by
  refine quiet_ask.bind fun valid ↦ ?_
  split
  · exact fun _ _ _ _ _ ↦ Meets.bind produce_meets fun _ ↦ Meets.bind destroy_meets fun _ ↦
      Meets.pure fun _ hw ↦ hw
  · exact quiet_pure _

theorem quiet_stopListeners : Quiet stopListeners := by
  intro base L o l R
  refine Meets.bind create_meets fun chunk ↦ ?_
  refine Meets.bind choose_meets fun rows ↦ ?_
  refine Meets.bind (quiet_stopListener.turns base L o (chunk :: l) R) fun _ ↦ ?_
  exact Meets.bind (destroy_meets (h := some chunk)) fun _ ↦ Meets.pure fun w hw ↦ hw

theorem quiet_stopAllListeners {prepared : Bool} : Quiet (stopAllListeners prepared) := by
  unfold stopAllListeners
  split
  · exact quiet_choose.bind fun _ ↦ quiet_stopListeners.turns.bind fun _ ↦ quiet_pure _
  · exact quiet_pure _

theorem quiet_stopQuackListeners : Quiet stopQuackListeners := by
  intro base L o l R
  refine Meets.bind produce_meets fun res ↦ ?_
  refine Meets.bind ask_meets fun shape ↦ ?_
  split
  · refine Meets.bind produce_meets fun stop ↦ ?_
    refine Meets.bind (quiet_stopAllListeners base L o _ R) fun _ ↦ ?_
    exact Meets.bind destroy_meets fun _ ↦ destroy_meets
  · exact destroy_meets

theorem quiet_profileOk : Quiet (profileOk n) := by
  refine (Quiet.turns (quiet_queryOk.bind fun ok ↦ ?_)).bind fun _ ↦ quiet_pure _
  split <;> exact quiet_pure _

theorem quiet_profileAll : Quiet (profileAll n) :=
  (quiet_queryOk.bind fun _ ↦ quiet_pure _).turns

theorem quiet_stopRefusedListeners : Quiet stopRefusedListeners := by
  refine quiet_ask.bind fun loaded ↦ ?_
  split
  · exact quiet_stopQuackListeners
  · refine quiet_ask.bind fun unknown ↦ ?_
    split
    · refine quiet_profileOk.bind fun off ↦ ?_
      split
      · exact quiet_stopQuackListeners
      · exact quiet_pure _
    · exact quiet_pure _

theorem quiet_containRefused : Quiet (containRefused haveV2) :=
  quiet_stopRefusedListeners.bind fun _ ↦ quiet_profileAll.bind fun _ ↦
    quiet_profileAll.bind fun _ ↦ quiet_pure _

theorem walks_admitLoadedExtensions : Walks L (admitLoadedExtensions haveV2) := by
  refine walks_checkLoadedExtensions.bind fun ok ↦ ?_
  split
  · exact (quiet_pure _).walks
  · exact (quiet_containRefused.bind fun _ ↦ quiet_pure _).walks

theorem quiet_bridgeOk : Quiet bridgeOk := fun _ _ _ _ _ ↦
  Meets.bind bridgeCall_meets fun _ ↦ Meets.bind destroy_meets fun _ ↦ Meets.pure fun _ hw ↦ hw

theorem quiet_clearWriters : Quiet clearWriters := quiet_bridgeOk

theorem quiet_clearLocalWriters : Quiet (clearLocalWriters n) := by
  induction n with
  | zero => exact quiet_pure _
  | succ n ih => exact quiet_clearWriters.bind fun _ ↦ ih.bind fun _ ↦ quiet_pure _

/-- A step of a check, after which it goes on or fails. -/
theorem Walks.and_then {c : Run Bool} {next : Run Bool} (hc : Walks L c) (hnext : Walks L next) :
    Walks L (do if ← c then next else pure false) := by
  refine hc.bind fun ok ↦ ?_
  split
  · exact hnext
  · exact (quiet_pure _).walks

theorem walks_applyInstanceSandbox : Walks L (applyInstanceSandbox haveV2) :=
  quiet_choose.walks.bind fun _ ↦ quiet_clearLocalWriters.walks.and_then <|
    walks_admitLoadedExtensions.and_then <| quiet_profileOk.walks.and_then <|
    walks_detachOutOfBasedir.and_then <| quiet_profileOk.walks.and_then quiet_ask.walks

theorem walks_disableExternalAccess : Walks L (disableExternalAccess haveV2) := by
  refine quiet_clearWriters.walks.and_then ?_
  refine quiet_ask.walks.and_then fun base o l ↦ ?_
  refine Meets.bind create_meets fun inspect ↦ ?_
  refine Meets.bind (Meets.guarded ((walks_applyInstanceSandbox base o (inspect :: l)).mono
    (fun _ hw ↦ hw) (fun _ _ hw ↦ hw) fun e w hw ↦ hw)) fun allowed ↦ ?_
  exact Meets.bind (destroy_meets (h := some inspect)) fun _ ↦ Meets.pure fun w hw ↦ hw

theorem walks_enforceSandboxLocked : Walks L (enforceSandboxLocked haveV2 i) := by
  refine quiet_ask.walks.bind fun refused ↦ ?_
  split
  · exact (quiet_pure _).walks
  · refine quiet_ask.walks.bind fun open' ↦ ?_
    split
    · exact (quiet_pure _).walks
    · refine quiet_ask.walks.bind fun first ↦ ?_
      split
      · exact walks_disableExternalAccess
      · exact quiet_ask.walks

/-- The lock is taken where the entry is allowed, and there only. -/
theorem nativeEnter_meets (hL : L.Ready i) :
    Meets (At base L o l) (nativeEnter haveV2 i)
      (fun allowed ↦ At base (if allowed then L.acquire i else L) o l)
      (fun e w ↦ e = .rowWalk ∧ w.lock = L) := by
  refine Meets.bind (act_meets fun w hw ↦ hw.acquire) fun _ ↦ ?_
  refine Meets.bind (Meets.guarded ((walks_enforceSandboxLocked base o l).mono
    (fun _ hw ↦ hw) (fun _ _ hw ↦ hw) fun e w hw ↦ ?_)) fun allowed ↦ ?_
  · exact ⟨hw.1, (congrArg (Lock.release · i) hw.2).trans hL.release_acquire⟩
  · split
    · exact Meets.pure fun w hw ↦ hw
    · exact Meets.bind (act_meets fun w hw ↦ hw.release hL) fun _ ↦ Meets.pure fun w hw ↦ hw

theorem nativeCleanupEnter_meets :
    Meets (At base L o l) (nativeCleanupEnter i) (fun _ ↦ At base (L.acquire i) o l) R := by
  refine Meets.bind (act_meets fun w hw ↦ hw.acquire) fun _ ↦ Meets.bind ask_meets fun _ ↦ ?_
  split
  · exact (quiet_clearWriters.bind fun _ ↦ quiet_clearWriters.bind fun _ ↦ quiet_pure _) base _ o l R
  · exact Meets.pure fun w hw ↦ hw

theorem sandboxError_meets (hL : L.Ready i) :
    Meets (At base L o l) (sandboxError i) (fun _ ↦ At base L o l) R :=
  Meets.bind (act_meets fun _ hw ↦ hw.acquire) fun _ ↦ act_meets fun _ hw ↦ hw.release hL

end Specs

end PdoDuckdb.Entries
