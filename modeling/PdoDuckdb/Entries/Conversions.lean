import PdoDuckdb.Entries.Handles

namespace PdoDuckdb.Entries

open Library
open Library.Exits (Meets)

section Columns

def allocations : Run PUnit := do
  let n ← choose
  let _ ← Exits.turns (do
    allocate .elsewhere
    pure (none : Option PUnit)) n

def may (m : Run PUnit) : Run PUnit := do
  if ← ask then m
  else pure ⟨⟩

def allTurns (turn : Run Bool) (n : ℕ) : Run Bool := do
  let failed ← Exits.turns (do
    if ← turn then pure none
    else pure (some PUnit.unit)) n
  pure failed.isNone

/-- `pdd_bridge_result_column`, which only a bridge result has. -/
def resultColumn (bridge : Bool) : Run Bool := do
  if bridge then do
    match ← bridgeCall with
    | some error => do
      reportBridgeError error
      pure false
    | none => pure true
  else pure true

/-- A call of `pdo_duckdb_nested_render_type_build` to the bridge, `pdd_bridge_type_is_tuple` or
`pdd_bridge_type_field_name`, and what it comes to. -/
def renderTypeCall : Run Bool := do
  if ← bridgeOk then ask
  else pure false

/-- `pdo_duckdb_nested_render_type_build`. It has no memory of PHP. -/
def nestedRenderTypeBuild : Run PUnit := do
  let calls ← choose
  let _ ← allTurns renderTypeCall calls

def cacheColumn (bridge : Bool) : Run Bool := do
  if ← resultColumn bridge then do
    -- a nested type
    may nestedRenderTypeBuild
    pure true
  else pure false

/-- `pdo_duckdb_enum_label`. -/
def enumLabel : Run Bool := do
  -- the engine has made the value
  if ← ask then do
    let error ← bridgeCalls
    act (World.destroy error.join)
    if error.isNone then ask
    else pure false
  else pure false

/-- An ENUM of `pdo_duckdb_stmt_cache_col_aux`, whose labels have no memory of PHP. -/
def cacheEnum : Run (Option PUnit) := do
  if ← ask then do
    let labels ← choose
    let _ ← allTurns (do
      if ← enumLabel then ask
      else pure false) labels
    pure none
  else pure none

/-- `pdo_duckdb_stmt_cache_col_aux`. -/
def cacheColAux (n : ℕ) : Run PUnit := do
  let _ ← Exits.turns cacheEnum n

def cacheAllColumns (bridge : Bool) : Run Bool := do
  let n ← choose
  if n = 0 then pure true
  else do
    -- `col_types`, `col_logical_types`, `col_nested_renderers` and `col_variant_probes`
    allocate .elsewhere
    allocate .elsewhere
    allocate .elsewhere
    allocate .elsewhere
    if ← allTurns (cacheColumn bridge) n then do
      -- `variant_cols`, where there are any
      may (allocate .elsewhere)
      cacheColAux n
      pure true
    else pure false

/-- `pdo_duckdb_stmt_cache_columns`. -/
def cacheColumns : Run Bool := do
  let o ← owner
  if (o.held .bridgeResult).isSome then do
    match ← bridgeCall with
    | some error => do
      reportBridgeError error
      pure false
    | none => cacheAllColumns true
  else cacheAllColumns false

end Columns

section Rows

/-- The copy of the message of a bridge error, which is freed where the copy bails out. -/
def copyBridgeError (error : Option Handle) : Run PUnit :=
  Exits.guarded (allocate .elsewhere) (World.destroy error)

/-- `pdo_duckdb_value_is_structured`. -/
def valueIsStructured : Run Bool := do
  -- a VARCHAR, whose alias is asked for
  if ← ask then do
    match ← bridgeCall with
    | some error => do
      copyBridgeError error
      act (World.destroy error)
      pure false
    | none => pure true
  else pure true

/-- A step of the walks below `pdo_duckdb_value_convert`: an allocation, a failure without an
error of the bridge, or a call to it, whose error is left in the context. -/
def convertStep : Run (Option (Option Handle)) := do
  if ← ask then do
    allocate .elsewhere
    pure none
  else if ← ask then pure (some none)
  else bridgeCall

def copyFailure (failed : Option (Option Handle)) (hasOom : Bool) : Run PUnit :=
  if failed.isSome && !hasOom then copyBridgeError failed.join
  else pure ⟨⟩

/-- `pdo_duckdb_value_convert`. The walks end with the first step that fails, so that a bailout
of theirs finds no error in the context. -/
def valueConvert : Run Bool := do
  -- out of memory, or without a context
  if ← ask then do
    may (allocate .elsewhere)
    pure false
  else do
    let steps ← choose
    let failed ← Exits.turns convertStep steps
    let hasOom ← ask
    copyFailure failed hasOom
    act (World.destroy failed.join)
    pure (failed.isNone && !hasOom)

/-- A label that is cached, or the text of `pdo_duckdb_fast_nested_col_to_string`. -/
def fastCell : Run Bool := do
  if ← ask then do
    allocations
    ask
  else pure false

def renderCell : Run Bool := do
  if ← ask then do
    if ← fastCell then pure true
    else valueConvert
  else pure true

def nativeCell : Run Bool := do
  if ← ask then valueConvert
  else pure true

def convertCell : Run Bool := do
  -- neither `canonical` nor `native`
  if ← ask then pure true
  else do
    -- the first that is has `row_canonical` and `row_values` made
    may allocations
    -- NULL
    if ← ask then pure true
    else if ← renderCell then nativeCell
    else pure false

/-- A column of `pdo_duckdb_stmt_fetched_row`. -/
def convertColumn : Run Bool := do
  -- out of memory
  if ← ask then pure false
  -- `row_native`, without a binding of the column to a scalar
  else if ← ask then do
    if ← valueIsStructured then convertCell
    else pure false
  else convertCell

/-- `failed` of `pdo_duckdb_stmt_fetched_row`. -/
def rowFailed : Run (Option Bool) := do
  if ← ask then pure (some false)
  else do
    reportError
    -- `pdo_handle_error`, where errors are exceptions
    allocations
    pure (some false)

/-- `pdo_duckdb_stmt_fetched_row`. -/
def fetchedRow : Run (Option Bool) := do
  -- a value of a type that this build does not know
  if ← ask then do
    allocate .elsewhere
    rowFailed
  else do
    let columns ← choose
    if ← allTurns convertColumn columns then do
      if ← ask then rowFailed
      else pure (some true)
    else rowFailed

end Rows

section Specs

variable {α β : Type} {base l : List Handle} {L : Lock} {o : Owner} {f : Run α} {g : α → Run β} {n : ℕ}
  {R : Bailout → World → Prop}

/-- A run that gives back all that it makes, where it bails out too. -/
def Tidy (base : List Handle) (L : Lock) (o : Owner) (f : Run α) : Prop :=
  Meets (At base L o []) f (fun _ ↦ At base L o []) (Bails base L)

theorem tidy_pure (a : α) : Tidy base L o (pure a) := Meets.pure fun _ hw ↦ hw

theorem tidy_ask : Tidy base L o ask := ask_meets

theorem tidy_choose : Tidy base L o choose := choose_meets

theorem Tidy.bind (hf : Tidy base L o f) (hg : ∀ a, Tidy base L o (g a)) : Tidy base L o (f >>= g) :=
  Meets.bind hf hg

theorem Tidy.turns {turn : Run (Option α)} (h : Tidy base L o turn) : Tidy base L o (Exits.turns turn n) := by
  refine (Meets.turns (Q := fun _ ↦ At base L o []) (h.post ?_)).post ?_
  · intro r w hw
    cases r <;> exact hw
  · intro r w hw
    cases r <;> exact hw

/-- The test of an outcome and what is done by it. -/
theorem Tidy.ite {c : Bool} {f f' : Run α} (hf : Tidy base L o f) (hf' : Tidy base L o f') :
    Tidy base L o (if c then f else f') := by
  split
  · exact hf
  · exact hf'

theorem Tidy.test {c : Run Bool} {f f' : Run α} (hc : Tidy base L o c) (hf : Tidy base L o f)
    (hf' : Tidy base L o f') : Tidy base L o (do if ← c then f else f') :=
  hc.bind fun _ ↦ hf.ite hf'

theorem Tidy.may {m : Run PUnit} (hm : Tidy base L o m) : Tidy base L o (may m) :=
  tidy_ask.test hm (tidy_pure _)

theorem Tidy.allTurns {turn : Run Bool} (h : Tidy base L o turn) : Tidy base L o (allTurns turn n) :=
  (Tidy.turns (h.test (tidy_pure _) (tidy_pure _))).bind fun _ ↦ tidy_pure _

theorem Quiet.tidy (hf : Quiet f) : Tidy base L o f := hf base L o [] _

theorem allocations_meets (hR : ∀ w, At base L o l w → R .elsewhere w) :
    Meets (At base L o l) allocations (fun _ ↦ At base L o l) R := by
  refine Meets.bind choose_meets fun n ↦ ?_
  refine Meets.bind (Meets.turns (Q := fun _ ↦ At base L o l) ?_) fun r ↦ Meets.pure fun w hw ↦ ?_
  · exact Meets.bind (allocate_meets hR) fun _ ↦ Meets.pure fun _ hw ↦ hw
  · cases r <;> exact hw

theorem tidy_allocate (ho : o.Sound) : Tidy base L o (allocate .elsewhere) :=
  allocate_meets fun _ hw ↦ hw.bails ho

theorem tidy_allocations (ho : o.Sound) : Tidy base L o allocations :=
  allocations_meets fun _ hw ↦ hw.bails ho

/-- A call to the bridge whose error is reported. -/
theorem tidy_reported (ho : o.Sound) {next : Run Bool} (hnext : Tidy base L o next) :
    Tidy base L o (do
      match ← bridgeCall with
      | some error => do
        reportBridgeError error
        pure false
      | none => next) := by
  refine Meets.bind bridgeCall_meets fun r ↦ ?_
  match r with
  | some error => exact Meets.bind (reportBridgeError_meets ho) fun _ ↦ Meets.pure fun _ hw ↦ hw
  | none => exact hnext

theorem tidy_resultColumn (ho : o.Sound) {bridge : Bool} : Tidy base L o (resultColumn bridge) :=
  (tidy_reported ho (tidy_pure true)).ite (tidy_pure true)

theorem quiet_renderTypeCall : Quiet renderTypeCall := by
  refine quiet_bridgeOk.bind fun ok ↦ ?_
  split
  · exact quiet_ask
  · exact quiet_pure _

theorem tidy_nestedRenderTypeBuild : Tidy base L o nestedRenderTypeBuild :=
  tidy_choose.bind fun _ ↦ quiet_renderTypeCall.tidy.allTurns.bind fun _ ↦ tidy_pure _

theorem tidy_cacheColumn (ho : o.Sound) {bridge : Bool} : Tidy base L o (cacheColumn bridge) :=
  (tidy_resultColumn ho).test
    (tidy_nestedRenderTypeBuild.may.bind fun _ ↦ tidy_pure true) (tidy_pure false)

theorem tidy_enumLabel : Tidy base L o enumLabel := by
  refine tidy_ask.test (Meets.bind bridgeCalls_meets fun error ↦ ?_) (tidy_pure false)
  exact Meets.bind destroy_meets fun _ ↦ tidy_ask.ite (tidy_pure false)

theorem tidy_cacheColAux : Tidy base L o (cacheColAux n) := by
  have hlabel : Tidy base L o (do if ← enumLabel then ask else pure false) :=
    tidy_enumLabel.test tidy_ask (tidy_pure false)
  have henum : Tidy base L o cacheEnum :=
    tidy_ask.test (tidy_choose.bind fun _ ↦ hlabel.allTurns.bind fun _ ↦ tidy_pure none) (tidy_pure none)
  exact henum.turns.bind fun _ ↦ tidy_pure _

theorem tidy_cacheAllColumns (ho : o.Sound) {bridge : Bool} : Tidy base L o (cacheAllColumns bridge) := by
  have hallocate : Tidy base L o (allocate .elsewhere) := tidy_allocate ho
  refine tidy_choose.bind fun n ↦ ?_
  split
  · exact tidy_pure true
  · refine hallocate.bind fun _ ↦ hallocate.bind fun _ ↦ hallocate.bind fun _ ↦ hallocate.bind fun _ ↦ ?_
    refine (tidy_cacheColumn ho).allTurns.test ?_ (tidy_pure false)
    exact hallocate.may.bind fun _ ↦ tidy_cacheColAux.bind fun _ ↦ tidy_pure true

theorem tidy_cacheColumns (ho : o.Sound) : Tidy base L o cacheColumns := by
  refine Meets.bind owner_meets fun o' ↦ Meets.given fun _ ↦ ?_
  split
  · exact tidy_reported ho (tidy_cacheAllColumns ho)
  · exact tidy_cacheAllColumns ho

theorem copyBridgeError_meets (ho : o.Sound) {error : Option Handle} :
    Meets (At base L o (error.toList ++ [])) (copyBridgeError error)
      (fun _ ↦ At base L o (error.toList ++ [])) (Bails base L) :=
  Meets.guarded (allocate_meets fun _ hw ↦ hw.destroy.bails ho)

theorem copyFailure_meets (ho : o.Sound) {failed : Option (Option Handle)} {hasOom : Bool} :
    Meets (At base L o (failed.join.toList ++ [])) (copyFailure failed hasOom)
      (fun _ ↦ At base L o (failed.join.toList ++ [])) (Bails base L) := by
  unfold copyFailure
  split
  · exact copyBridgeError_meets ho
  · exact Meets.pure fun _ hw ↦ hw

theorem tidy_valueIsStructured (ho : o.Sound) : Tidy base L o valueIsStructured := by
  refine tidy_ask.test (Meets.bind bridgeCall_meets fun r ↦ ?_) (tidy_pure true)
  match r with
  | some error =>
    exact Meets.bind (copyBridgeError_meets ho) fun _ ↦ Meets.bind destroy_meets fun _ ↦ tidy_pure false
  | none => exact tidy_pure true

theorem convertStep_meets (ho : o.Sound) :
    Meets (At base L o []) convertStep (fun r ↦ At base L o (r.join.toList ++ [])) (Bails base L) := by
  refine Meets.bind ask_meets fun allocates ↦ ?_
  split
  · exact Meets.bind (tidy_allocate ho) fun _ ↦ Meets.pure fun _ hw ↦ hw
  · refine Meets.bind ask_meets fun fails ↦ ?_
    split
    · exact Meets.pure fun _ hw ↦ hw
    · exact bridgeCall_meets

/-- The error of a conversion is freed after it is copied, however the copy ends. -/
theorem tidy_valueConvert (ho : o.Sound) : Tidy base L o valueConvert := by
  refine tidy_ask.test ((tidy_allocate ho).may.bind fun _ ↦ tidy_pure false) ?_
  refine tidy_choose.bind fun steps ↦ ?_
  have hwalk : Meets (At base L o []) (Exits.turns convertStep steps)
      (fun r ↦ At base L o (r.join.toList ++ [])) (Bails base L) := by
    refine (Meets.turns (Q := fun error ↦ At base L o (error.toList ++ [])) ((convertStep_meets ho).post ?_)).post ?_
    · intro r w hw
      cases r <;> exact hw
    · intro r w hw
      cases r <;> exact hw
  refine Meets.bind hwalk fun failed ↦ Meets.bind ask_meets fun hasOom ↦ ?_
  exact Meets.bind (copyFailure_meets ho) fun _ ↦ Meets.bind destroy_meets fun _ ↦ tidy_pure _

theorem tidy_convertCell (ho : o.Sound) : Tidy base L o convertCell := by
  have hfast : Tidy base L o fastCell :=
    tidy_ask.test ((tidy_allocations ho).bind fun _ ↦ tidy_ask) (tidy_pure false)
  have hrender : Tidy base L o renderCell :=
    tidy_ask.test (hfast.test (tidy_pure true) (tidy_valueConvert ho)) (tidy_pure true)
  have hnative : Tidy base L o nativeCell := tidy_ask.test (tidy_valueConvert ho) (tidy_pure true)
  refine tidy_ask.test (tidy_pure true) ?_
  refine (tidy_allocations ho).may.bind fun _ ↦ ?_
  exact tidy_ask.test (tidy_pure true) (hrender.test hnative (tidy_pure false))

theorem tidy_convertColumn (ho : o.Sound) : Tidy base L o convertColumn :=
  tidy_ask.test (tidy_pure false) <|
    tidy_ask.test ((tidy_valueIsStructured ho).test (tidy_convertCell ho) (tidy_pure false)) (tidy_convertCell ho)

theorem tidy_fetchedRow (ho : o.Sound) : Tidy base L o fetchedRow := by
  have hfailed : Tidy base L o rowFailed :=
    tidy_ask.test (tidy_pure _) <| (tidy_allocate ho).bind fun _ ↦ (tidy_allocations ho).bind fun _ ↦ tidy_pure _
  refine tidy_ask.test ((tidy_allocate ho).bind fun _ ↦ hfailed) ?_
  refine tidy_choose.bind fun _ ↦ (tidy_convertColumn ho).allTurns.test ?_ hfailed
  exact tidy_ask.test hfailed (tidy_pure _)

end Specs

end PdoDuckdb.Entries
