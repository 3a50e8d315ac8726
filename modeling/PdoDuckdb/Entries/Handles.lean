import PdoDuckdb.Entries.Sandbox

namespace PdoDuckdb.Entries

open Library
open Driver (Address)
open Library.Exits (Meets)

section Errors

/-- `pdo_duckdb_error`, `pdo_duckdb_error_code` and those on a statement. -/
def reportError : Run PUnit := allocate .elsewhere

/-- The report of a bridge error, which is freed however it ends. -/
def reportBridgeError (error : Option Handle) : Run PUnit := do
  Exits.guarded reportError (World.destroy error)
  act (World.destroy error)

/-- `pdo_duckdb_native_error_copy_locked`, with what it destroys. -/
def nativeErrorCopyLocked (i : Option Address) (clean : World → World) : Run PUnit :=
  Exits.guarded (allocate .elsewhere) fun w ↦ (clean w).release i

/-- Where `pdo_duckdb_native_enter` fails. -/
def reportSandbox (i : Option Address) : Run Bool := do
  sandboxError i
  reportError
  pure false

/-- `pdd_bridge_connection_is_remote`, then `pdd_bridge_connection_has_remote_catalogs`. -/
def remoteCalls : Run (Option (Option Handle)) := bridgeCalls

end Errors

section Preparing

inductive Planned
  | noPlan
  | failed (error : Option Handle)
  | planned

def Planned.error : Planned → Option Handle
  | .failed error => error
  | _ => none

def finishPlan : Run Planned := do
  -- the bindings and the native text
  allocate .elsewhere
  allocate .elsewhere
  pure .planned

/-- A second plan, for the other parser. -/
def planAgain : Run Planned := do
  allocate .elsewhere
  if ← ask then do
    allocate .elsewhere
    finishPlan
  else pure .noPlan

def makePlan : Run Planned := do
  allocate .elsewhere
  if ← ask then do
    -- the probe
    allocate .elsewhere
    if ← ask then do
      match ← bridgeCall with
      | some error => pure (.failed error)
      | none =>
        if ← ask then planAgain
        else finishPlan
    else finishPlan
  else pure .noPlan

/-- `bridge_failure`. -/
def bridgeFailure (i : Option Address) (error : Option Handle) : Run Bool := do
  act (World.release i)
  reportBridgeError error
  pure false

def classifyQuery : Run (Option (Option Handle) × Bool) := do
  match ← remoteCalls with
  | some error => pure (some error, false)
  | none =>
    if ← ask then do
      let error ← bridgeCall
      pure (error, true)
    else pure (none, false)

/-- `duckdb_prepare`, into the statement. -/
def prepareStatement (i : Option Address) : Run Bool := do
  let prepared ← produce .prepared
  act (World.put .prepared prepared.1)
  if prepared.2 then do
    act (World.release i)
    pure true
  else do
    nativeErrorCopyLocked i (World.clear .prepared)
    act (World.clear .prepared)
    act (World.release i)
    reportError
    pure false

def prepareLocked (i : Option Address) : Run Bool := do
  match ← bridgeCall with
  | some error => bridgeFailure i error
  | none =>
    match ← Exits.guarded makePlan (World.release i) with
    | .noPlan => do
      act (World.release i)
      reportError
      pure false
    | .failed error => bridgeFailure i error
    | .planned =>
      match ← classifyQuery with
      | (some error, _) => bridgeFailure i error
      | (none, true) => do
        act (World.release i)
        pure true
      | (none, false) => prepareStatement i

/-- `duckdb_handle_preparer`. -/
def handlePreparer (haveV2 : Bool) (i : Option Address) : Run Bool := do
  -- a cursor that is not forward-only, or a NUL byte
  if ← ask then do
    reportError
    pure false
  else do
    allocate .elsewhere
    if ← nativeEnter haveV2 i then prepareLocked i
    else reportSandbox i

end Preparing

section Executing

/-- A turn of `pdo_duckdb_exec_transaction_multi`. Its reports are made while the
caller has the batch. -/
def execTurn (haveV2 : Bool) (i : Option Address) (extracted : Option Handle) : Run (Option PUnit) := do
  if ← nativeEnter haveV2 i then do
    let prepared ← produce .prepared
    if prepared.2 then do
      let result ← produce .result
      if result.2 then do
        act (World.destroy result.1)
        act (World.destroy prepared.1)
        act (World.release i)
        pure none
      else do
        nativeErrorCopyLocked i fun w ↦ ((w.destroy result.1).destroy prepared.1).destroy extracted
        act (World.destroy result.1)
        act (World.destroy prepared.1)
        act (World.release i)
        allocate .batch
        pure (some ⟨⟩)
    else do
      nativeErrorCopyLocked i fun w ↦ (w.destroy prepared.1).destroy extracted
      act (World.destroy prepared.1)
      act (World.release i)
      allocate .batch
      pure (some ⟨⟩)
  else do
    sandboxError i
    allocate .batch
    pure (some ⟨⟩)

/-- `pdo_duckdb_exec_transaction_multi`. -/
def execTransactionMulti (haveV2 : Bool) (i : Option Address) (extracted : Option Handle) (count : ℕ) :
    Run Bool := do
  let failed ← Exits.turns (execTurn haveV2 i extracted) count
  pure failed.isNone

/-- `pdo_duckdb_exec_bridge_locked`. -/
def execBridgeLocked (i : Option Address) : Run Bool := do
  let error ← bridgeCall
  act (World.release i)
  match error with
  | none => pure true
  | some error => do
    reportBridgeError error
    pure false

/-- `duckdb_query` on the whole text. -/
def execQuery (haveV2 : Bool) (i : Option Address) : Run Bool := do
  if ← nativeEnter haveV2 i then do
    let result ← produce .result
    if result.2 then do
      act (World.destroy result.1)
      act (World.release i)
      pure true
    else do
      nativeErrorCopyLocked i (World.destroy result.1)
      act (World.destroy result.1)
      act (World.release i)
      reportError
      pure false
  else reportSandbox i

def execExtracted (haveV2 : Bool) (i : Option Address) (verified : ℕ) : Run Bool := do
  -- the effects
  allocate .elsewhere
  if ← nativeEnter haveV2 i then do
    let extracted ← mayCreate .extracted
    let count ← choose
    if count = 0 then do
      nativeErrorCopyLocked i (World.destroy extracted)
      act (World.destroy extracted)
      act (World.release i)
      reportError
      pure false
    else do
      act (World.release i)
      if 1 < count ∧ count = verified then do
        let changed ← execTransactionMulti haveV2 i extracted count
        act (World.destroy extracted)
        pure changed
      else do
        act (World.destroy extracted)
        if count = verified then execQuery haveV2 i
        else do
          reportError
          pure false
  else reportSandbox i

/-- The part of `duckdb_handle_doer` with a bridge for batches: its result, or
none where the query goes on without it. -/
def execBridged (haveV2 : Bool) (i : Option Address) (multiple : Bool) : Run (Option Bool) := do
  if ← nativeEnter haveV2 i then do
    match ← remoteCalls with
    | some error => do
      act (World.release i)
      reportBridgeError error
      pure (some false)
    | none => do
      let remote ← ask
      if remote || multiple then do
        let changed ← execBridgeLocked i
        pure (some changed)
      else do
        act (World.release i)
        pure none
  else do
    let changed ← reportSandbox i
    pure (some changed)

def execLegacy (haveV2 : Bool) (i : Option Address) (multiple transaction : Bool) (verified : ℕ) :
    Run Bool :=
  if multiple && transaction then execExtracted haveV2 i verified
  else execQuery haveV2 i

/-- `duckdb_handle_doer`, by what the tokens of the text say: that there are more
statements than one, that one of them begins or ends a transaction, and how many
they are. -/
def handleDoer (haveV2 : Bool) (i : Option Address) (multiple transaction : Bool) (verified : ℕ) :
    Run Bool := do
  -- a NUL byte
  if ← ask then do
    reportError
    pure false
  else if haveV2 then do
    match ← execBridged haveV2 i multiple with
    | some changed => pure changed
    | none => execLegacy haveV2 i multiple transaction verified
  else execLegacy haveV2 i multiple transaction verified

end Executing

section Specs

variable {base l : List Handle} {L : Lock} {o : Owner} {i : Option Address} {haveV2 : Bool}
  {error extracted : Option Handle} {R : Bailout → World → Prop}

def Settled (base : List Handle) (L : Lock) (w : World) : Prop := ∃ o, o.Sound ∧ At base L o [] w

/-- What a bailout leaves: the lock as it was, and where it is none of the two
kinds apart, all that is there with its owner. -/
def Bails (base : List Handle) (L : Lock) (e : Bailout) (w : World) : Prop :=
  w.lock = L ∧ (e = .elsewhere → Settled base L w)

theorem At.settled {w : World} (hw : At base L o [] w) (ho : o.Sound) : Settled base L w := ⟨o, ho, hw⟩

theorem At.bails {e : Bailout} {w : World} (hw : At base L o [] w) (ho : o.Sound) : Bails base L e w :=
  ⟨hw.lock, fun _ ↦ hw.settled ho⟩

theorem bails_of_rowWalk {e : Bailout} {w : World} (h : e = .rowWalk ∧ w.lock = L) : Bails base L e w :=
  ⟨h.2, fun he ↦ by rw [h.1] at he; cases he⟩

theorem nativeEnter_bails (hL : L.Ready i) :
    Meets (At base L o l) (nativeEnter haveV2 i)
      (fun allowed ↦ At base (if allowed then L.acquire i else L) o l) (Bails base L) :=
  (nativeEnter_meets hL).mono (fun _ hw ↦ hw) (fun _ _ hw ↦ hw) fun _ _ ↦ bails_of_rowWalk

/-- An entry and what is done where it is allowed and where it is not. -/
theorem enter_meets {α : Type} {entered refused : Run α} {Q : α → World → Prop} (hL : L.Ready i)
    (hentered : Meets (At base (L.acquire i) o l) entered Q (Bails base L))
    (hrefused : Meets (At base L o l) refused Q (Bails base L)) :
    Meets (At base L o l) (do if ← nativeEnter haveV2 i then entered else refused) Q (Bails base L) := by
  refine Meets.bind (nativeEnter_bails hL) fun allowed ↦ ?_
  split
  · exact hentered
  · exact hrefused

theorem release_meets (hL : L.Ready i) :
    Meets (At base (L.acquire i) o l) (act (World.release i)) (fun _ ↦ At base L o l) R :=
  act_meets fun _ hw ↦ hw.release hL

theorem reportError_meets (ho : o.Sound) :
    Meets (At base L o []) reportError (fun _ ↦ At base L o []) (Bails base L) :=
  allocate_meets fun _ hw ↦ hw.bails ho

/-- A report at the end of an entry point. -/
theorem reportError_false_meets (ho : o.Sound) :
    Meets (At base L o []) (do reportError; pure false) (fun _ ↦ Settled base L) (Bails base L) :=
  Meets.bind (reportError_meets ho) fun _ ↦ Meets.pure fun _ hw ↦ hw.settled ho

theorem reportBridgeError_meets (ho : o.Sound) :
    Meets (At base L o (error.toList ++ [])) (reportBridgeError error) (fun _ ↦ At base L o [])
      (Bails base L) := by
  refine Meets.bind (Q := fun _ ↦ At base L o (error.toList ++ [])) (Meets.guarded ?_) fun _ ↦ destroy_meets
  exact allocate_meets fun _ hw ↦ hw.destroy.bails ho

/-- What a copy of an error leaves: the copy, or nothing of what it was to clean. -/
theorem nativeErrorCopyLocked_meets {o' : Owner} {clean : World → World} (hL : L.Ready i) (ho : o'.Sound)
    (hclean : ∀ w, At base (L.acquire i) o l w → At base (L.acquire i) o' [] (clean w)) :
    Meets (At base (L.acquire i) o l) (nativeErrorCopyLocked i clean)
      (fun _ ↦ At base (L.acquire i) o l) (Bails base L) :=
  Meets.guarded (allocate_meets fun _ hw ↦ ((hclean _ hw).release hL).bails ho)

theorem reportSandbox_meets (hL : L.Ready i) (ho : o.Sound) :
    Meets (At base L o []) (reportSandbox i) (fun _ ↦ Settled base L) (Bails base L) :=
  Meets.bind (sandboxError_meets hL) fun _ ↦ reportError_false_meets ho

theorem remoteCalls_meets :
    Meets (At base L o l) remoteCalls (fun r ↦ At base L o (r.join.toList ++ l)) R := bridgeCalls_meets

theorem finishPlan_meets :
    Meets (At base L o []) finishPlan (fun r ↦ At base L o (r.error.toList ++ []))
      (fun _ ↦ At base L o []) :=
  Meets.bind (allocate_meets fun _ hw ↦ hw) fun _ ↦ Meets.bind (allocate_meets fun _ hw ↦ hw) fun _ ↦
    Meets.pure fun _ hw ↦ hw

theorem planAgain_meets :
    Meets (At base L o []) planAgain (fun r ↦ At base L o (r.error.toList ++ []))
      (fun _ ↦ At base L o []) := by
  refine Meets.bind (allocate_meets fun _ hw ↦ hw) fun _ ↦ Meets.bind ask_meets fun planned ↦ ?_
  split
  · exact Meets.bind (allocate_meets fun _ hw ↦ hw) fun _ ↦ finishPlan_meets
  · exact Meets.pure fun _ hw ↦ hw

theorem makePlan_meets :
    Meets (At base L o []) makePlan (fun r ↦ At base L o (r.error.toList ++ []))
      (fun _ ↦ At base L o []) := by
  refine Meets.bind (allocate_meets fun _ hw ↦ hw) fun _ ↦ Meets.bind ask_meets fun planned ↦ ?_
  split
  · refine Meets.bind (allocate_meets fun _ hw ↦ hw) fun _ ↦ Meets.bind ask_meets fun legacy ↦ ?_
    split
    · refine Meets.bind bridgeCall_meets fun r ↦ ?_
      match r with
      | some error => exact Meets.pure fun _ hw ↦ hw
      | none =>
        refine Meets.bind ask_meets fun other ↦ ?_
        split
        · exact planAgain_meets
        · exact finishPlan_meets
    · exact finishPlan_meets
  · exact Meets.pure fun _ hw ↦ hw

theorem bridgeFailure_meets (hL : L.Ready i) (ho : o.Sound) :
    Meets (At base (L.acquire i) o (error.toList ++ [])) (bridgeFailure i error)
      (fun _ ↦ Settled base L) (Bails base L) :=
  Meets.bind (release_meets hL) fun _ ↦ Meets.bind (reportBridgeError_meets ho) fun _ ↦
    Meets.pure fun _ hw ↦ hw.settled ho

theorem classifyQuery_meets :
    Meets (At base L o l) classifyQuery (fun r ↦ At base L o (r.1.join.toList ++ l)) R := by
  refine Meets.bind remoteCalls_meets fun r ↦ ?_
  match r with
  | some error => exact Meets.pure fun _ hw ↦ hw
  | none =>
    refine Meets.bind ask_meets fun deferred ↦ ?_
    split
    · exact Meets.bind bridgeCall_meets fun error ↦ Meets.pure fun _ hw ↦ hw
    · exact Meets.pure fun _ hw ↦ hw

theorem Owner.Sound.put_prepared (ho : o.Sound) (h : Option Handle) : (o.put .prepared h).Sound :=
  ⟨ho.unset, ho.single⟩

theorem prepareStatement_meets (hL : L.Ready i) (ho : o.Sound) (hempty : o.held .prepared = none) :
    Meets (At base (L.acquire i) o []) (prepareStatement i) (fun _ ↦ Settled base L) (Bails base L) := by
  refine Meets.bind produce_meets fun prepared ↦ ?_
  refine Meets.bind (act_meets fun _ hw ↦ hw.put hempty) fun _ ↦ ?_
  have hput := ho.put_prepared prepared.1
  split
  · exact Meets.bind (release_meets hL) fun _ ↦ Meets.pure fun _ hw ↦ hw.settled hput
  · refine Meets.bind (nativeErrorCopyLocked_meets hL (hput.put_prepared none) fun _ hw ↦ hw.clear) fun _ ↦ ?_
    refine Meets.bind (act_meets fun _ hw ↦ hw.clear) fun _ ↦ ?_
    exact Meets.bind (release_meets hL) fun _ ↦ reportError_false_meets (hput.put_prepared none)

theorem prepareLocked_meets (hL : L.Ready i) (ho : o.Sound) (hempty : o.held .prepared = none) :
    Meets (At base (L.acquire i) o []) (prepareLocked i) (fun _ ↦ Settled base L) (Bails base L) := by
  refine Meets.bind bridgeCall_meets fun r ↦ ?_
  match r with
  | some error => exact bridgeFailure_meets hL ho
  | none =>
    have hplan : Meets (At base (L.acquire i) o []) (Exits.guarded makePlan (World.release i))
        (fun r ↦ At base (L.acquire i) o (r.error.toList ++ [])) (Bails base L) :=
      Meets.guarded (makePlan_meets.mono (fun _ hw ↦ hw) (fun _ _ hw ↦ hw) fun _ _ hw ↦
        (hw.release hL).bails ho)
    refine Meets.bind hplan fun r ↦ ?_
    match r with
    | .noPlan => exact Meets.bind (release_meets hL) fun _ ↦ reportError_false_meets ho
    | .failed error => exact bridgeFailure_meets hL ho
    | .planned =>
      refine Meets.bind classifyQuery_meets fun classified ↦ ?_
      match classified with
      | (some error, _) => exact bridgeFailure_meets hL ho
      | (none, true) => exact Meets.bind (release_meets hL) fun _ ↦ Meets.pure fun _ hw ↦ hw.settled ho
      | (none, false) => exact prepareStatement_meets hL ho hempty

theorem handlePreparer_meets (hL : L.Ready i) (ho : o.Sound) (hempty : o.held .prepared = none) :
    Meets (At base L o []) (handlePreparer haveV2 i) (fun _ ↦ Settled base L) (Bails base L) := by
  refine Meets.bind ask_meets fun invalid ↦ ?_
  split
  · exact reportError_false_meets ho
  · refine Meets.bind (allocate_meets fun _ hw ↦ hw.bails ho) fun _ ↦ ?_
    exact enter_meets hL (prepareLocked_meets hL ho hempty) (reportSandbox_meets hL ho)

theorem batch_meets {r : Option PUnit} :
    Meets (At base L o l) (do allocate .batch; pure r) (fun _ ↦ At base L o l) (Bails base L) :=
  Meets.bind (allocate_meets fun _ hw ↦ ⟨hw.lock, fun he ↦ by cases he⟩) fun _ ↦ Meets.pure fun _ hw ↦ hw

/-- The batch is its caller's after every turn. -/
theorem execTurn_meets (hL : L.Ready i) (ho : o.Sound) :
    Meets (At base L o (extracted.toList ++ [])) (execTurn haveV2 i extracted)
      (fun _ ↦ At base L o (extracted.toList ++ [])) (Bails base L) := by
  refine enter_meets hL ?_ (Meets.bind (sandboxError_meets hL) fun _ ↦ batch_meets)
  refine Meets.bind produce_meets fun prepared ↦ ?_
  split
  · refine Meets.bind produce_meets fun result ↦ ?_
    split
    · refine Meets.bind destroy_meets fun _ ↦ Meets.bind destroy_meets fun _ ↦ ?_
      exact Meets.bind (release_meets hL) fun _ ↦ Meets.pure fun _ hw ↦ hw
    · refine Meets.bind (nativeErrorCopyLocked_meets hL ho fun _ hw ↦ hw.destroy.destroy.destroy) fun _ ↦ ?_
      refine Meets.bind destroy_meets fun _ ↦ Meets.bind destroy_meets fun _ ↦ ?_
      exact Meets.bind (release_meets hL) fun _ ↦ batch_meets
  · refine Meets.bind (nativeErrorCopyLocked_meets hL ho fun _ hw ↦ hw.destroy.destroy) fun _ ↦ ?_
    exact Meets.bind destroy_meets fun _ ↦ Meets.bind (release_meets hL) fun _ ↦ batch_meets

theorem execTransactionMulti_meets (hL : L.Ready i) (ho : o.Sound) {count : ℕ} :
    Meets (At base L o (extracted.toList ++ [])) (execTransactionMulti haveV2 i extracted count)
      (fun _ ↦ At base L o (extracted.toList ++ [])) (Bails base L) := by
  refine Meets.bind (Meets.turns (Q := fun _ ↦ At base L o (extracted.toList ++ [])) ?_) fun failed ↦ ?_
  · refine (execTurn_meets hL ho).post fun r _ hw ↦ ?_
    cases r <;> exact hw
  · refine Meets.pure fun w hw ↦ ?_
    cases failed <;> exact hw

theorem execBridgeLocked_meets (hL : L.Ready i) (ho : o.Sound) :
    Meets (At base (L.acquire i) o []) (execBridgeLocked i) (fun _ ↦ Settled base L) (Bails base L) := by
  refine Meets.bind bridgeCall_meets fun r ↦ Meets.bind (release_meets hL) fun _ ↦ ?_
  match r with
  | none => exact Meets.pure fun _ hw ↦ hw.settled ho
  | some error =>
    exact Meets.bind (reportBridgeError_meets ho) fun _ ↦ Meets.pure fun _ hw ↦ hw.settled ho

theorem execQuery_meets (hL : L.Ready i) (ho : o.Sound) :
    Meets (At base L o []) (execQuery haveV2 i) (fun _ ↦ Settled base L) (Bails base L) := by
  refine enter_meets hL ?_ (reportSandbox_meets hL ho)
  refine Meets.bind produce_meets fun result ↦ ?_
  split
  · exact Meets.bind destroy_meets fun _ ↦ Meets.bind (release_meets hL) fun _ ↦
      Meets.pure fun _ hw ↦ hw.settled ho
  · refine Meets.bind (nativeErrorCopyLocked_meets hL ho fun _ hw ↦ hw.destroy) fun _ ↦ ?_
    exact Meets.bind destroy_meets fun _ ↦ Meets.bind (release_meets hL) fun _ ↦ reportError_false_meets ho

theorem execExtracted_meets (hL : L.Ready i) (ho : o.Sound) {verified : ℕ} :
    Meets (At base L o []) (execExtracted haveV2 i verified) (fun _ ↦ Settled base L) (Bails base L) := by
  refine Meets.bind (allocate_meets fun _ hw ↦ hw.bails ho) fun _ ↦ ?_
  refine enter_meets hL ?_ (reportSandbox_meets hL ho)
  refine Meets.bind mayCreate_meets fun extracted ↦ Meets.bind choose_meets fun count ↦ ?_
  split
  · refine Meets.bind (nativeErrorCopyLocked_meets hL ho fun _ hw ↦ hw.destroy) fun _ ↦ ?_
    exact Meets.bind destroy_meets fun _ ↦ Meets.bind (release_meets hL) fun _ ↦ reportError_false_meets ho
  · refine Meets.bind (release_meets hL) fun _ ↦ ?_
    split
    · exact Meets.bind (execTransactionMulti_meets hL ho) fun _ ↦ Meets.bind destroy_meets fun _ ↦
        Meets.pure fun _ hw ↦ hw.settled ho
    · refine Meets.bind destroy_meets fun _ ↦ ?_
      split
      · exact execQuery_meets hL ho
      · exact reportError_false_meets ho

theorem execLegacy_meets (hL : L.Ready i) (ho : o.Sound) {multiple transaction : Bool} {verified : ℕ} :
    Meets (At base L o []) (execLegacy haveV2 i multiple transaction verified)
      (fun _ ↦ Settled base L) (Bails base L) := by
  unfold execLegacy
  split
  · exact execExtracted_meets hL ho
  · exact execQuery_meets hL ho

theorem execBridged_meets (hL : L.Ready i) (ho : o.Sound) {multiple : Bool} :
    Meets (At base L o []) (execBridged haveV2 i multiple)
      (fun r w ↦ match r with
        | some _ => Settled base L w
        | none => At base L o [] w) (Bails base L) := by
  refine enter_meets hL ?_ (Meets.bind (reportSandbox_meets hL ho) fun _ ↦ Meets.pure fun _ hw ↦ hw)
  refine Meets.bind remoteCalls_meets fun r ↦ ?_
  match r with
  | some error =>
    exact Meets.bind (release_meets hL) fun _ ↦ Meets.bind (reportBridgeError_meets ho) fun _ ↦
      Meets.pure fun _ hw ↦ hw.settled ho
  | none =>
    refine Meets.bind ask_meets fun remote ↦ ?_
    split
    · exact Meets.bind (execBridgeLocked_meets hL ho) fun _ ↦ Meets.pure fun _ hw ↦ hw
    · exact Meets.bind (release_meets hL) fun _ ↦ Meets.pure fun _ hw ↦ hw

theorem handleDoer_meets (hL : L.Ready i) (ho : o.Sound) {multiple transaction : Bool} {verified : ℕ} :
    Meets (At base L o []) (handleDoer haveV2 i multiple transaction verified)
      (fun _ ↦ Settled base L) (Bails base L) := by
  refine Meets.bind ask_meets fun nul ↦ ?_
  split
  · exact reportError_false_meets ho
  · split
    · refine Meets.bind (execBridged_meets hL ho) fun r ↦ ?_
      match r with
      | some changed => exact Meets.pure fun _ hw ↦ hw
      | none => exact execLegacy_meets hL ho
    · exact execLegacy_meets hL ho

end Specs

end PdoDuckdb.Entries
