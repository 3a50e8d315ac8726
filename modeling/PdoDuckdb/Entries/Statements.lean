import PdoDuckdb.Entries.Conversions

namespace PdoDuckdb.Entries

open Library
open Driver (Address)
open Library.Exits (Meets)

section Results

/-- `pdo_duckdb_stmt_reset_result_full`. -/
def resetResult (i : Option Address) : Run PUnit := do
  act (World.clear .chunk)
  let o ← owner
  if o.hasResult then do
    nativeCleanupEnter i
    act (World.clear (if (o.held .bridgeResult).isSome then .bridgeResult else .result))
    act (World.release i)
    act (World.setHasResult false)
  else pure ⟨⟩

/-- `pdo_duckdb_stmt_copy_error_locked`. -/
def stmtCopyErrorLocked (i : Option Address) (pending : Option Handle) : Run PUnit :=
  nativeErrorCopyLocked i fun w ↦ ((w.destroy pending).clear .result).setHasResult false

end Results

section Executing

def finishExecute (i : Option Address) : Run Bool := do
  if ← cacheColumns then pure true
  else do
    resetResult i
    pure false

/-- `pdd_bridge_query_execute`, then `pdd_bridge_result_info`. -/
def executeCalls : Run (Option (Option Handle)) := bridgeCalls

def executeBridged (i : Option Address) : Run Bool := do
  let result ← mayCreate .bridgeResult
  act (World.put .bridgeResult result)
  act (World.setHasResult result.isSome)
  let error ← executeCalls
  act (World.release i)
  match error with
  | some error => do
    resetResult i
    reportBridgeError error
    pure false
  | none => finishExecute i

def executePrepared : Run Bool := do
  let result ← produce .result
  act (World.put .result result.1)
  pure result.2

/-- The run of the prepared statement, by way of a pending result where it is
unbuffered. -/
def runPrepared : Run (Option Handle × Bool) := do
  if ← ask then do
    let pending ← produce .pending
    if pending.2 then do
      let ok ← executePrepared
      pure (pending.1, ok)
    else pure (pending.1, false)
  else do
    let ok ← executePrepared
    pure (none, ok)

def executeNative (i : Option Address) : Run Bool := do
  let ran ← runPrepared
  if ran.2 then do
    act (World.destroy ran.1)
    act (World.setHasResult true)
    act (World.release i)
    finishExecute i
  else do
    stmtCopyErrorLocked i ran.1
    act (World.destroy ran.1)
    act (World.clear .result)
    act (World.release i)
    reportError
    pure false

def executeQuery (haveV2 : Bool) (i : Option Address) : Run Bool := do
  if ← ask then do
    -- the text with the values in it
    allocations
    if ← ask then do
      if ← nativeEnter haveV2 i then executeBridged i
      else reportSandbox i
    else do
      reportError
      pure false
  else do
    if ← nativeEnter haveV2 i then executeNative i
    else reportSandbox i

def clearBindings (i : Option Address) : Run PUnit := do
  if ← ask then do
    act (World.acquire i)
    act (World.release i)
  else pure ⟨⟩

/-- `pdo_duckdb_stmt_execute`. -/
def stmtExecute (haveV2 : Bool) (i : Option Address) : Run Bool := do
  resetResult i
  clearBindings i
  if ← nativeEnter haveV2 i then do
    let error ← remoteCalls
    act (World.release i)
    match error with
    | some error => do
      reportBridgeError error
      pure false
    | none => executeQuery haveV2 i
  else reportSandbox i

end Executing

section Fetching

/-- A chunk that has been fetched, which may be empty. -/
def takeChunk (i : Option Address) : Run (Option Bool) := do
  act (World.release i)
  if ← ask then fetchedRow
  else pure none

def fetchBridged (i : Option Address) : Run (Option Bool) := do
  let chunk ← mayCreate .chunk
  act (World.put .chunk chunk)
  match ← bridgeCall with
  | some error => do
    act (World.release i)
    resetResult i
    reportBridgeError error
    pure (some false)
  | none =>
    if chunk.isSome then takeChunk i
    else do
      act (World.release i)
      pure (some false)

def fetchNative (i : Option Address) : Run (Option Bool) := do
  let chunk ← mayCreate .chunk
  act (World.put .chunk chunk)
  if chunk.isSome then takeChunk i
  else if ← ask then do
    stmtCopyErrorLocked i none
    act (World.release i)
    reportError
    resetResult i
    pure (some false)
  else do
    act (World.release i)
    pure (some false)

def fetchTurn (haveV2 : Bool) (i : Option Address) : Run (Option Bool) := do
  if ← nativeEnter haveV2 i then do
    act (World.clear .chunk)
    let o ← owner
    if (o.held .bridgeResult).isSome then fetchBridged i
    else fetchNative i
  else do
    sandboxError i
    reportError
    resetResult i
    pure (some false)

/-- `pdo_duckdb_stmt_fetch`; there is no result yet where so many turns have
brought empty chunks only. -/
def stmtFetch (haveV2 : Bool) (i : Option Address) (n : ℕ) : Run (Option Bool) := do
  let o ← owner
  let done ← ask
  if !o.hasResult || done then pure (some false)
  else if ← ask then do
    reportError
    pure (some false)
  else if ← ask then fetchedRow
  else Exits.turns (fetchTurn haveV2 i) n

end Fetching

section Specs

variable {base l : List Handle} {L : Lock} {o : Owner} {i : Option Address} {haveV2 : Bool}
  {R : Bailout → World → Prop}

def Owner.reset (o : Owner) : Owner := ⟨fun j ↦ if j = .prepared then o.held .prepared else none, false⟩

theorem Owner.sound_reset (o : Owner) : o.reset.Sound := ⟨fun _ ↦ ⟨rfl, rfl⟩, fun h ↦ absurd rfl h⟩

theorem Owner.ext_held {o o' : Owner} (h : ∀ j, o.held j = o'.held j) (hr : o.hasResult = o'.hasResult) :
    o = o' := by
  cases o
  cases o'
  exact congr (congrArg Owner.mk (funext h)) hr

@[simp] theorem Owner.held_put_self (o : Owner) (j : Slot) (h : Option Handle) : (o.put j h).held j = h := by
  unfold Owner.put
  exact Function.update_self ..

@[simp] theorem Owner.held_put_of_ne (o : Owner) {j j' : Slot} (h : Option Handle) (hj : j' ≠ j) :
    (o.put j h).held j' = o.held j' := by
  unfold Owner.put
  exact Function.update_of_ne hj ..

@[simp] theorem Owner.hasResult_put (o : Owner) (j : Slot) (h : Option Handle) :
    (o.put j h).hasResult = o.hasResult := rfl

@[simp] theorem Owner.held_setHasResult (o : Owner) (b : Bool) : (o.setHasResult b).held = o.held := rfl

@[simp] theorem Owner.hasResult_setHasResult (o : Owner) (b : Bool) : (o.setHasResult b).hasResult = b := rfl

/-- What is cleared is all that there was besides the prepared statement. -/
theorem Owner.Sound.reset_of_hasResult (ho : o.Sound) (j : Slot)
    (hj : j = if (o.held .bridgeResult).isSome then .bridgeResult else .result) :
    (((o.put .chunk none).put j none).setHasResult false) = o.reset := by
  refine ext_held (fun k ↦ ?_) rfl
  subst hj
  cases hb : o.held .bridgeResult with
  | none => cases k <;> simp [Owner.reset, hb]
  | some h =>
    have hr := ho.single (by simp [hb])
    cases k <;> simp [Owner.reset, hr]

theorem Owner.Sound.reset_of_not_hasResult (ho : o.Sound) (h : o.hasResult = false) :
    o.put .chunk none = o.reset := by
  obtain ⟨hresult, hbridge⟩ := ho.unset h
  refine ext_held (fun k ↦ ?_) h
  cases k <;> simp [Owner.reset, hresult, hbridge]

theorem resetResult_meets (hL : L.Ready i) (ho : o.Sound) :
    Meets (At base L o l) (resetResult i) (fun _ ↦ At base L o.reset l) R := by
  refine Meets.bind (act_meets fun _ hw ↦ hw.clear) fun _ ↦ ?_
  refine Meets.bind owner_meets fun o' ↦ Meets.given fun ho' ↦ ?_
  subst ho'
  split
  · refine Meets.bind nativeCleanupEnter_meets fun _ ↦ Meets.bind (act_meets fun _ hw ↦ hw.clear) fun _ ↦ ?_
    refine Meets.bind (release_meets hL) fun _ ↦ act_meets fun _ hw ↦ ?_
    have hreset := hw.setHasResult (b := false)
    rwa [ho.reset_of_hasResult _ (by simp)] at hreset
  · next h =>
    rw [ho.reset_of_not_hasResult (by simpa using h)]
    exact Meets.pure fun _ hw ↦ hw

theorem finishExecute_meets (hL : L.Ready i) (ho : o.Sound) :
    Meets (At base L o []) (finishExecute i) (fun _ ↦ Settled base L) (Bails base L) := by
  refine Meets.bind (tidy_cacheColumns ho) fun ok ↦ ?_
  split
  · exact Meets.pure fun _ hw ↦ hw.settled ho
  · exact Meets.bind (resetResult_meets hL ho) fun _ ↦ Meets.pure fun _ hw ↦ hw.settled o.sound_reset

theorem executeCalls_meets :
    Meets (At base L o l) executeCalls (fun r ↦ At base L o (r.join.toList ++ l)) R := bridgeCalls_meets

/-- There is no result, and `has_result` says so. -/
structure Owner.Idle (o : Owner) : Prop where
  hasResult : o.hasResult = false
  result : o.held .result = none
  bridgeResult : o.held .bridgeResult = none

theorem Owner.idle_reset (o : Owner) : o.reset.Idle := ⟨rfl, rfl, rfl⟩

theorem Owner.Idle.sound (ho : o.Idle) : o.Sound := ⟨fun _ ↦ ⟨ho.result, ho.bridgeResult⟩, fun _ ↦ ho.result⟩

theorem Owner.Idle.sound_bridge (ho : o.Idle) (h : Option Handle) :
    ((o.put .bridgeResult h).setHasResult h.isSome).Sound := by
  refine ⟨fun hnone ↦ ?_, fun _ ↦ by simpa using ho.result⟩
  have hnone : h = none := by simpa using hnone
  simp [ho.result, hnone]

theorem Owner.Idle.sound_result (ho : o.Idle) (h : Option Handle) :
    ((o.put .result h).setHasResult true).Sound :=
  ⟨fun hnone ↦ by simp at hnone, fun hsome ↦ by simp [ho.bridgeResult] at hsome⟩

/-- A result that is given up again. -/
theorem Owner.Idle.put_result_none (ho : o.Idle) (h : Option Handle) : (o.put .result h).put .result none = o := by
  refine ext_held (fun k ↦ ?_) rfl
  cases k <;> simp [ho.result]

theorem Owner.Idle.setHasResult_false (ho : o.Idle) : o.setHasResult false = o :=
  ext_held (fun _ ↦ rfl) ho.hasResult.symm

theorem executeBridged_meets (hL : L.Ready i) (ho : o.Idle) :
    Meets (At base (L.acquire i) o []) (executeBridged i) (fun _ ↦ Settled base L) (Bails base L) := by
  refine Meets.bind mayCreate_meets fun result ↦ ?_
  refine Meets.bind (act_meets fun _ hw ↦ hw.put ho.bridgeResult) fun _ ↦ ?_
  refine Meets.bind (act_meets fun _ hw ↦ hw.setHasResult) fun _ ↦ ?_
  have hsound := ho.sound_bridge result
  refine Meets.bind executeCalls_meets fun r ↦ Meets.bind (release_meets hL) fun _ ↦ ?_
  match r with
  | some error =>
    refine Meets.bind (resetResult_meets hL hsound) fun _ ↦ ?_
    exact Meets.bind (reportBridgeError_meets (Owner.sound_reset _)) fun _ ↦
      Meets.pure fun _ hw ↦ hw.settled (Owner.sound_reset _)
  | none => exact finishExecute_meets hL hsound

theorem executePrepared_meets (ho : o.Idle) :
    Meets (At base L o l) executePrepared (fun _ w ↦ ∃ h, At base L (o.put .result h) l w) R := by
  refine Meets.bind produce_meets fun result ↦ ?_
  exact Meets.bind (act_meets fun _ hw ↦ hw.put ho.result) fun _ ↦ Meets.pure fun _ hw ↦ ⟨result.1, hw⟩

theorem runPrepared_meets (ho : o.Idle) :
    Meets (At base L o l) runPrepared
      (fun r w ↦ ∃ h, At base L (o.put .result h) (r.1.toList ++ l) w) R := by
  have hnone : o.put .result none = o := by
    refine Owner.ext_held (fun k ↦ ?_) rfl
    cases k <;> simp [ho.result]
  refine Meets.bind ask_meets fun unbuffered ↦ ?_
  split
  · refine Meets.bind produce_meets fun pending ↦ ?_
    split
    · exact Meets.bind (executePrepared_meets ho) fun _ ↦ Meets.pure fun _ hw ↦ hw
    · exact Meets.pure fun _ hw ↦ ⟨none, by rwa [hnone]⟩
  · exact Meets.bind (executePrepared_meets ho) fun _ ↦ Meets.pure fun _ hw ↦ hw

theorem executeNative_meets (hL : L.Ready i) (ho : o.Idle) :
    Meets (At base (L.acquire i) o []) (executeNative i) (fun _ ↦ Settled base L) (Bails base L) := by
  refine Meets.bind (runPrepared_meets ho) fun ran ↦ Meets.exists_pre fun h ↦ ?_
  have hclear := ho.put_result_none h
  split
  · refine Meets.bind destroy_meets fun _ ↦ Meets.bind (act_meets fun _ hw ↦ hw.setHasResult) fun _ ↦ ?_
    exact Meets.bind (release_meets hL) fun _ ↦ finishExecute_meets hL (ho.sound_result h)
  · refine Meets.bind (nativeErrorCopyLocked_meets hL ho.sound fun w hw ↦ ?_) fun _ ↦ ?_
    · have hclean := (hw.destroy.clear (j := .result)).setHasResult (b := false)
      rwa [hclear, ho.setHasResult_false] at hclean
    · refine Meets.bind destroy_meets fun _ ↦ Meets.bind (act_meets fun _ hw ↦ hw.clear) fun _ ↦ ?_
      rw [hclear]
      exact Meets.bind (release_meets hL) fun _ ↦ reportError_false_meets ho.sound

theorem executeQuery_meets (hL : L.Ready i) (ho : o.Idle) :
    Meets (At base L o []) (executeQuery haveV2 i) (fun _ ↦ Settled base L) (Bails base L) := by
  have hsandbox : Meets (At base L o []) (reportSandbox i) (fun _ ↦ Settled base L) (Bails base L) :=
    reportSandbox_meets hL ho.sound
  refine Meets.bind ask_meets fun deferred ↦ ?_
  split
  · refine Meets.bind (allocations_meets fun _ hw ↦ hw.bails ho.sound) fun _ ↦ Meets.bind ask_meets fun _ ↦ ?_
    split
    · exact enter_meets hL (executeBridged_meets hL ho) hsandbox
    · exact reportError_false_meets ho.sound
  · exact enter_meets hL (executeNative_meets hL ho) hsandbox

theorem clearBindings_meets (hL : L.Ready i) :
    Meets (At base L o l) (clearBindings i) (fun _ ↦ At base L o l) R := by
  refine Meets.bind ask_meets fun prepared ↦ ?_
  split
  · exact sandboxError_meets hL
  · exact Meets.pure fun _ hw ↦ hw

theorem stmtExecute_meets (hL : L.Ready i) (ho : o.Sound) :
    Meets (At base L o []) (stmtExecute haveV2 i) (fun _ ↦ Settled base L) (Bails base L) := by
  have hidle := o.idle_reset
  refine Meets.bind (resetResult_meets hL ho) fun _ ↦ Meets.bind (clearBindings_meets hL) fun _ ↦ ?_
  refine enter_meets hL ?_ (reportSandbox_meets hL hidle.sound)
  refine Meets.bind remoteCalls_meets fun r ↦ Meets.bind (release_meets hL) fun _ ↦ ?_
  match r with
  | some error =>
    exact Meets.bind (reportBridgeError_meets hidle.sound) fun _ ↦
      Meets.pure fun _ hw ↦ hw.settled hidle.sound
  | none => exact executeQuery_meets hL hidle

theorem Owner.Sound.put_chunk (ho : o.Sound) (h : Option Handle) : (o.put .chunk h).Sound :=
  ⟨fun hnone ↦ ho.unset hnone, fun hsome ↦ ho.single hsome⟩

theorem fetchedRow_meets (ho : o.Sound) :
    Meets (At base L o []) fetchedRow (fun _ ↦ Settled base L) (Bails base L) :=
  (tidy_fetchedRow ho).post fun _ _ hw ↦ hw.settled ho

theorem takeChunk_meets (hL : L.Ready i) (ho : o.Sound) :
    Meets (At base (L.acquire i) o []) (takeChunk i) (fun _ ↦ Settled base L) (Bails base L) := by
  refine Meets.bind (release_meets hL) fun _ ↦ Meets.bind ask_meets fun full ↦ ?_
  split
  · exact fetchedRow_meets ho
  · exact Meets.pure fun _ hw ↦ hw.settled ho

theorem fetchBridged_meets (hL : L.Ready i) (ho : o.Sound) (hchunk : o.held .chunk = none) :
    Meets (At base (L.acquire i) o []) (fetchBridged i) (fun _ ↦ Settled base L) (Bails base L) := by
  refine Meets.bind mayCreate_meets fun chunk ↦ Meets.bind (act_meets fun _ hw ↦ hw.put hchunk) fun _ ↦ ?_
  have hsound := ho.put_chunk chunk
  refine Meets.bind bridgeCall_meets fun r ↦ ?_
  match r with
  | some error =>
    refine Meets.bind (release_meets hL) fun _ ↦ Meets.bind (resetResult_meets hL hsound) fun _ ↦ ?_
    exact Meets.bind (reportBridgeError_meets (Owner.sound_reset _)) fun _ ↦
      Meets.pure fun _ hw ↦ hw.settled (Owner.sound_reset _)
  | none =>
    dsimp only
    split
    · exact takeChunk_meets hL hsound
    · exact Meets.bind (release_meets hL) fun _ ↦ Meets.pure fun _ hw ↦ hw.settled hsound

theorem fetchNative_meets (hL : L.Ready i) (ho : o.Sound) (hchunk : o.held .chunk = none)
    (hbridge : o.held .bridgeResult = none) :
    Meets (At base (L.acquire i) o []) (fetchNative i) (fun _ ↦ Settled base L) (Bails base L) := by
  refine Meets.bind mayCreate_meets fun chunk ↦ Meets.bind (act_meets fun _ hw ↦ hw.put hchunk) fun _ ↦ ?_
  have hsound := ho.put_chunk chunk
  split
  · exact takeChunk_meets hL hsound
  · refine Meets.bind ask_meets fun failed ↦ ?_
    split
    · -- the copy of the error gives up the result where it bails out
      have hcleared : (((o.put .chunk chunk).put .result none).setHasResult false).Sound :=
        ⟨fun _ ↦ by simp [hbridge], fun h ↦ by simp [hbridge] at h⟩
      refine Meets.bind (nativeErrorCopyLocked_meets hL hcleared fun w hw ↦ hw.clear.setHasResult) fun _ ↦ ?_
      refine Meets.bind (release_meets hL) fun _ ↦ Meets.bind (reportError_meets hsound) fun _ ↦ ?_
      exact Meets.bind (resetResult_meets hL hsound) fun _ ↦
        Meets.pure fun _ hw ↦ hw.settled (Owner.sound_reset _)
    · exact Meets.bind (release_meets hL) fun _ ↦ Meets.pure fun _ hw ↦ hw.settled hsound

theorem fetchTurn_meets (hL : L.Ready i) (ho : o.Sound) :
    Meets (At base L o []) (fetchTurn haveV2 i) (fun _ ↦ Settled base L) (Bails base L) := by
  refine enter_meets hL ?_ ?_
  · refine Meets.bind (act_meets fun _ hw ↦ hw.clear) fun _ ↦ ?_
    refine Meets.bind owner_meets fun o' ↦ Meets.given fun ho' ↦ ?_
    subst ho'
    have hsound := ho.put_chunk none
    have hchunk : (o.put .chunk none).held .chunk = none := o.held_put_self .chunk none
    split
    · exact fetchBridged_meets hL hsound hchunk
    · next hbridge => exact fetchNative_meets hL hsound hchunk (by simpa using hbridge)
  · refine Meets.bind (sandboxError_meets hL) fun _ ↦ Meets.bind (reportError_meets ho) fun _ ↦ ?_
    exact Meets.bind (resetResult_meets hL ho) fun _ ↦ Meets.pure fun _ hw ↦ hw.settled o.sound_reset

theorem stmtFetch_meets (hL : L.Ready i) (ho : o.Sound) {n : ℕ} :
    Meets (At base L o []) (stmtFetch haveV2 i n) (fun _ ↦ Settled base L) (Bails base L) := by
  refine Meets.bind owner_meets fun o' ↦ Meets.given fun _ ↦ Meets.bind ask_meets fun done ↦ ?_
  split
  · exact Meets.pure fun _ hw ↦ hw.settled ho
  · refine Meets.bind ask_meets fun backward ↦ ?_
    split
    · exact Meets.bind (reportError_meets ho) fun _ ↦ Meets.pure fun _ hw ↦ hw.settled ho
    · refine Meets.bind ask_meets fun loaded ↦ ?_
      split
      · exact fetchedRow_meets ho
      · have hturn : Meets (Settled base L) (fetchTurn haveV2 i) (fun _ ↦ Settled base L) (Bails base L) :=
          Meets.chosen fun _ ho ↦ fetchTurn_meets hL ho
        refine ((Meets.turns (Q := fun _ ↦ Settled base L) (hturn.post fun r _ hw ↦ ?_)).post
          fun r _ hw ↦ ?_).pre fun _ hw ↦ hw.settled ho
        · cases r <;> exact hw
        · cases r <;> exact hw

end Specs

end PdoDuckdb.Entries
