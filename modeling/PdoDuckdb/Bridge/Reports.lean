import PdoDuckdb.Bridge.Batches
import Mathlib.Data.List.Induction

namespace PdoDuckdb.Bridge

open Library Library.Exits

section Reports

def Call.succeeded (c : Call) : Bool :=
  match c.answer with
  | .result r => !r.failed
  | _ => false

/-- Whether the result of a call counts as a query result, and its change count;
`none` when there is no such result, or no reading its count. -/
def Call.tally (c : Call) : Option (Bool × ℕ) :=
  match c.answer with
  | .result r =>
    if r.failed then none
    else (r.readAffectedRows c.classification).map fun (counted, changed) ↦
      (!counted && !c.control && decide (r.returnType = .queryResult), changed)
  | _ => none

def Call.returnsRows (c : Call) : Bool := c.tally.any Prod.fst

def Call.changed (c : Call) : ℕ := (c.tally.map Prod.snd).getD 0

def BatchEffect.over (earlier effect : BatchEffect) : BatchEffect :=
  if effect = .none then earlier else effect

def lastEffect (history : List Call) : BatchEffect :=
  (history.filter Call.succeeded).foldl (fun earlier c ↦ earlier.over c.effect) .none

/-- What `rows_changed` is for calls that were all executed. -/
def reportedRows (force : Bool) (history : List Call) : ℕ :=
  if force ∨ ¬ history.any Call.returnsRows then (history.getLast?.map Call.changed).getD 0 else 0

/-- What the report says after any exit: the calls that were executed and their last
effect, and no call comes after one that failed. -/
structure Reported (info : ExecInfo) (history : List Call) : Prop where
  completed : info.completedStatements = history.countP Call.succeeded
  effect : info.lastTransactionEffect = lastEffect history
  front : ∀ c ∈ history.dropLast, c.tally.isSome

structure Settled (force : Bool) (info : ExecInfo) (saw : Bool) (history : List Call) : Prop
    extends Reported info history where
  tallied : ∀ c ∈ history, c.tally.isSome
  sawQueryResult : saw = history.any Call.returnsRows
  rows : info.rowsChanged = reportedRows force history

variable {info : ExecInfo} {saw rows force : Bool} {history front : List Call} {c : Call} {n : ℕ}

theorem Call.tally_result {r : QueryResult} (h : c.answer = .result r) :
    c.tally = if r.failed then none
      else (r.readAffectedRows c.classification).map fun (counted, changed) ↦
        (!counted && !c.control && decide (r.returnType = .queryResult), changed) := by
  unfold tally
  rw [h]

theorem Call.succeeded_of_tally (h : c.tally.isSome) : c.succeeded = true := by
  cases hc : c.answer with
  | result r =>
    rw [tally_result hc] at h
    have hr : r.failed = false := by
      by_contra hr
      rw [if_pos (by simpa using hr)] at h
      cases h
    simp [succeeded, hc, hr]
  | prepareFailed => simp [tally, hc] at h
  | thrown => simp [tally, hc] at h

theorem lastEffect_append :
    lastEffect (history ++ [c]) = if c.succeeded then (lastEffect history).over c.effect else lastEffect history := by
  unfold lastEffect
  cases hc : c.succeeded <;> simp [hc]

theorem reportedRows_append (h : c.tally = some (rows, n)) :
    reportedRows force (history ++ [c]) = if force ∨ ¬ (history.any Call.returnsRows || rows) then n else 0 := by
  have hrows : c.returnsRows = rows := by simp [Call.returnsRows, h]
  have hchanged : c.changed = n := by simp [Call.changed, h]
  simp [reportedRows, hrows, hchanged]

/-- A call that failed is no part of the report. -/
theorem Settled.failed (h : Settled force info saw front) (hc : c.succeeded = false) :
    Reported info (front ++ [c]) where
  completed := by rw [h.completed, List.countP_append]; simp [hc]
  effect := by rw [h.effect, lastEffect_append]; simp [hc]
  front := by
    rw [List.dropLast_concat]
    exact h.tallied

/-- A call that was executed is counted, also when its result cannot be. -/
theorem Settled.executed (h : Settled force info saw front) (hc : c.succeeded = true) :
    Reported { info with
      completedStatements := info.completedStatements + 1
      lastTransactionEffect := info.lastTransactionEffect.over c.effect } (front ++ [c]) where
  completed := by
    rw [List.countP_append, ← h.completed]
    simp [hc]
  effect := by
    rw [lastEffect_append, if_pos hc, ← h.effect]
  front := by
    rw [List.dropLast_concat]
    exact h.tallied

theorem Settled.counted (h : Settled force info saw front) (hc : c.tally = some (rows, n)) :
    Settled force { info with
      completedStatements := info.completedStatements + 1
      lastTransactionEffect := info.lastTransactionEffect.over c.effect
      rowsChanged := if force ∨ ¬ (saw || rows) then n else 0 } (saw || rows) (front ++ [c]) where
  completed := (h.executed (Call.succeeded_of_tally (hc ▸ rfl))).completed
  effect := (h.executed (Call.succeeded_of_tally (hc ▸ rfl))).effect
  front := (h.executed (Call.succeeded_of_tally (hc ▸ rfl))).front
  tallied d hd := by
    rcases List.mem_append.mp hd with hd | hd
    · exact h.tallied d hd
    · obtain rfl := List.mem_singleton.mp hd
      rw [hc]
      rfl
  sawQueryResult := by
    rw [List.any_append, ← h.sawQueryResult]
    simp [Call.returnsRows, hc]
  rows := by
    rw [reportedRows_append hc, h.sawQueryResult]

/-- The report of a parse failure is about nothing that was handed to the engine. -/
theorem Settled.parse (h : Settled force info saw history) (b : Bool) :
    Settled force { info with parseFailed := b } saw history :=
  ⟨⟨h.completed, h.effect, h.front⟩, h.tallied, h.sawQueryResult, h.rows⟩

end Reports

section Steps

variable {Ω α : Type} {v2 force : Bool}

def SettledAt (force : Bool) (s : BatchState Ω) : Prop := Settled force s.info s.sawQueryResult s.history

def ReportedAt (s : BatchState Ω) : Prop := Reported s.info s.history

theorem engineCall_meets {P : BatchState Ω → Prop} {f : Ω → Except Thrown α × Ω}
    (h : ∀ s w, P s → P { s with engine := w }) :
    Meets P (engineCall f) (fun _ ↦ P) fun _ ↦ P := by
  intro s hs
  unfold engineCall
  cases (f s.engine).1 with
  | ok a => exact h s _ hs
  | error e => exact h s _ hs

theorem ofExcept_meets {P : BatchState Ω → Prop} {x : Except Thrown α} :
    Meets P (ofExcept x) (fun _ ↦ P) fun _ ↦ P := by
  cases x with
  | ok a => exact Meets.pure fun _ hs ↦ hs
  | error e => exact Meets.exit fun _ hs ↦ hs

theorem read_meets {P : BatchState Ω → Prop} {f : BatchState Ω → α} :
    Meets P (read f) (fun a s ↦ a = f s ∧ P s) fun _ ↦ P :=
  Meets.step fun _ hs ↦ ⟨rfl, hs⟩

theorem update_meets {P Q : BatchState Ω → Prop} {R : BatchExit → BatchState Ω → Prop}
    {f : BatchState Ω → BatchState Ω} (h : ∀ s, P s → Q (f s)) : Meets P (update f) (fun _ ↦ Q) R :=
  Meets.step h

variable (force) in
/-- The last call has a result that is not in the report yet. -/
def PendingAt (c : Call) (s : BatchState Ω) : Prop :=
  ∃ front, s.history = front ++ [c] ∧ Settled force s.info s.sawQueryResult front

theorem submit_meets {call : Answer → Call} {f : Ω → Except Thrown Answer × Ω}
    (hcall : ∀ a, (call a).answer = a) :
    Meets (SettledAt force) (submit call f) (fun r ↦ PendingAt force (call (.result r)))
      fun _ ↦ ReportedAt := by
  have hfailed : ∀ a, (∀ r, a ≠ .result r) → (call a).succeeded = false := by
    intro a ha
    unfold Call.succeeded
    rw [hcall]
    cases a with
    | result r => exact absurd rfl (ha r)
    | prepareFailed => rfl
    | thrown => rfl
  unfold submit
  refine Meets.bind (Meets.step (Q := fun _ ↦ SettledAt force) fun s hs ↦ hs) fun a ↦ ?_
  refine Meets.bind (update_meets (Q := PendingAt force (call a)) fun s hs ↦ ⟨s.history, rfl, hs⟩) fun _ ↦ ?_
  cases a with
  | result r => exact Meets.pure fun s hs ↦ hs
  | prepareFailed =>
    refine Meets.bind (update_meets (Q := ReportedAt) ?_) fun _ ↦ Meets.exit fun s hs ↦ hs
    rintro s ⟨front, hhistory, hs⟩
    have h := hs.failed (hfailed .prepareFailed (by simp))
    exact ⟨hhistory ▸ h.completed, hhistory ▸ h.effect, hhistory ▸ h.front⟩
  | thrown =>
    refine Meets.exit ?_
    rintro s ⟨front, hhistory, hs⟩
    unfold ReportedAt
    rw [hhistory]
    exact hs.failed (hfailed .thrown (by simp))

theorem finishBatchResult_meets {c : Call} {output : QueryResult} (hc : c.answer = .result output) :
    Meets (PendingAt force c) (finishBatchResult (Ω := Ω) output c.classification c.effect c.control force)
      (fun _ ↦ SettledAt force) fun _ ↦ ReportedAt := by
  unfold finishBatchResult
  cases hfailed : output.failed with
  | true =>
    rw [if_pos rfl]
    refine Meets.exit ?_
    rintro s ⟨front, hhistory, hs⟩
    unfold ReportedAt
    rw [hhistory]
    exact hs.failed (by simp [Call.succeeded, hc, hfailed])
  | false =>
    rw [if_neg Bool.false_ne_true]
    have hsucceeded : c.succeeded = true := by simp [Call.succeeded, hc, hfailed]
    refine Meets.bind (update_meets (Q := fun s ↦ ∃ front info, s.history = front ++ [c] ∧
      Settled force info s.sawQueryResult front ∧ s.info = { info with
        completedStatements := info.completedStatements + 1
        lastTransactionEffect := info.lastTransactionEffect.over c.effect }) ?_) fun _ ↦ ?_
    · rintro s ⟨front, hhistory, hs⟩
      exact ⟨front, s.info, hhistory, hs, rfl⟩
    unfold countResult
    cases hcount : output.readAffectedRows c.classification with
    | none =>
      refine Meets.exit ?_
      rintro s ⟨front, info, hhistory, hs, hinfo⟩
      unfold ReportedAt
      rw [hhistory, hinfo]
      exact hs.executed hsucceeded
    | some r =>
      refine update_meets ?_
      rintro s ⟨front, info, hhistory, hs, hinfo⟩
      have htally : c.tally = some (!r.1 && !c.control && decide (output.returnType = .queryResult), r.2) := by
        rw [Call.tally_result hc, hfailed, if_neg Bool.false_ne_true, hcount]
        rfl
      unfold SettledAt
      dsimp only
      rw [hhistory, hinfo]
      exact hs.counted htally

variable (E : BatchEngine Ω)

theorem executeBatchStatement_meets (l : Located) :
    Meets (SettledAt force) (executeBatchStatement E v2 force l) (fun _ ↦ SettledAt force)
      fun _ ↦ ReportedAt := by
  unfold executeBatchStatement
  refine Meets.bind (read_meets.mono (fun _ hs ↦ hs) (fun _ _ hs ↦ hs.2) fun _ _ hs ↦ hs.toReported) fun canPrepare ↦ ?_
  exact Meets.bind (submit_meets fun a ↦ rfl) fun output ↦ finishBatchResult_meets rfl

theorem dispatchUnparsed_meets (remaining : List Byte) :
    Meets (SettledAt force) (dispatchUnparsed E force remaining) (fun _ ↦ SettledAt force)
      fun _ ↦ ReportedAt := by
  unfold dispatchUnparsed
  refine Meets.bind (submit_meets fun a ↦ rfl) fun output ↦ ?_
  refine Meets.bind (update_meets ?_) fun _ ↦
    finishBatchResult_meets (c := ⟨none, remaining, ⟨.other, false⟩, .none, false, .result output⟩) rfl
  rintro s ⟨front, hhistory, hs⟩
  exact ⟨front, hhistory, hs.parse _⟩

theorem afterParseError_meets (forward : BatchState Ω → List Byte) (e : BatchExit) :
    Meets (SettledAt force) (afterParseError E force forward e) (fun _ ↦ SettledAt force)
      fun _ ↦ ReportedAt := by
  unfold afterParseError
  split
  · exact Meets.exit fun s hs ↦ hs.toReported
  split
  · refine Meets.bind (update_meets (Q := SettledAt force) fun s hs ↦ hs.parse _) fun _ ↦ ?_
    split
    · exact Meets.exit fun s hs ↦ hs.toReported
    · refine Meets.bind (read_meets.mono (fun _ hs ↦ hs) (fun _ _ hs ↦ hs.2) fun _ _ hs ↦ hs.toReported) fun _ ↦ ?_
      exact dispatchUnparsed_meets E _
  · exact Meets.exit fun s hs ↦ hs.toReported

/-- The parser has no part in the report. -/
theorem next_settled :
    Meets (SettledAt force) (BatchParser.next E) (fun _ ↦ SettledAt force) fun _ ↦ SettledAt force := by
  unfold BatchParser.next
  refine Meets.bind (engineCall_meets fun _ _ hs ↦ hs) fun more ↦ ?_
  split
  · refine Meets.bind (engineCall_meets fun _ _ hs ↦ hs) fun statement ↦ ?_
    unfold BatchParser.take
    refine Meets.bind (Q := fun _ ↦ SettledAt force) (update_meets fun _ hs ↦ hs) fun _ ↦ ?_
    refine Meets.bind (read_meets.post fun _ _ hs ↦ hs.2) fun parser ↦ ?_
    split
    · exact Meets.exit fun _ hs ↦ hs
    unfold BatchParser.place
    refine Meets.bind ofExcept_meets fun tokens ↦ ?_
    refine Meets.bind (read_meets.post fun _ _ hs ↦ hs.2) fun parser ↦ ?_
    split
    · exact Meets.exit fun _ hs ↦ hs
    · exact Meets.bind (Q := fun _ ↦ SettledAt force) (update_meets fun _ hs ↦ hs) fun _ ↦
        Meets.pure fun _ hs ↦ hs
  · exact Meets.pure fun _ hs ↦ hs

theorem nextStatement_meets :
    Meets (SettledAt force) (nextStatement E force) (fun _ ↦ SettledAt force) fun _ ↦ ReportedAt := by
  unfold nextStatement
  refine Meets.caught ((next_settled E).mono (fun _ hs ↦ hs) (fun _ _ hs ↦ hs) fun _ _ hs ↦ hs) fun e ↦ ?_
  exact Meets.bind (afterParseError_meets E _ e) fun _ ↦ Meets.pure fun _ hs ↦ hs

theorem lazyTurn_meets :
    Meets (SettledAt false) (lazyTurn E) (fun _ ↦ SettledAt false) fun _ ↦ ReportedAt := by
  unfold lazyTurn
  refine Meets.bind (nextStatement_meets E) fun next ↦ ?_
  cases next with
  | none => exact Meets.pure fun _ hs ↦ hs
  | some l => exact Meets.bind (executeBatchStatement_meets E l) fun _ ↦ Meets.pure fun _ hs ↦ hs

theorem eagerTurn_meets :
    Meets (SettledAt true) (eagerTurn E) (fun _ ↦ SettledAt true) fun _ ↦ ReportedAt := by
  unfold eagerTurn
  refine Meets.bind (nextStatement_meets E) fun next ↦ ?_
  cases next with
  | none => exact Meets.pure fun _ hs ↦ hs
  | some l => exact Meets.bind (update_meets fun _ hs ↦ hs) fun _ ↦ Meets.pure fun _ hs ↦ hs

theorem batchLoop_meets {P : BatchState Ω → Prop} {R : BatchExit → BatchState Ω → Prop}
    {turn : Batch Ω (Option PUnit)} (h : Meets P turn (fun _ ↦ P) R) (hR : ∀ e s, P s → R e s) :
    Meets P (batchLoop turn) (fun _ ↦ P) R := by
  unfold batchLoop
  refine Meets.bind (read_meets.mono (fun _ hs ↦ hs) (fun _ _ hs ↦ hs.2) hR) fun n ↦ ?_
  refine Meets.bind (S := fun _ ↦ P) (Meets.turns (Q := fun _ ↦ P) (h.post fun r s hs ↦ ?_)) fun r ↦ ?_
  · cases r <;> exact hs
  · cases r with
    | none => exact Meets.exit fun s hs ↦ hR _ s hs
    | some _ => exact Meets.pure fun _ hs ↦ hs

theorem execBatch_settled (query : List Byte) :
    Meets (SettledAt force) (execBatch E v2 query force) (fun _ ↦ SettledAt force) fun _ ↦ ReportedAt := by
  unfold execBatch
  split
  · exact Meets.exit fun s hs ↦ hs.toReported
  split
  · unfold execBatchLazily openBatch
    refine Meets.bind (S := fun _ ↦ SettledAt force) (Q := fun _ ↦ SettledAt force)
      (Meets.caught (S := fun _ ↦ SettledAt force) ?_ fun e ↦ ?_) fun opened ↦ ?_
    · unfold BatchParser.open
      refine Meets.bind (Q := fun _ ↦ SettledAt force) (Meets.bind ofExcept_meets fun _ ↦ Meets.bind ofExcept_meets fun _ ↦
        Meets.bind (engineCall_meets fun _ _ hs ↦ hs) fun _ ↦ update_meets fun _ hs ↦ hs) fun _ ↦ ?_
      exact Meets.pure fun _ hs ↦ hs
    · exact Meets.bind (afterParseError_meets E _ e) fun _ ↦ Meets.pure fun _ hs ↦ hs
    split
    · unfold batchLoops
      split
      · rename_i hforce
        subst hforce
        refine Meets.bind (batchLoop_meets (eagerTurn_meets E) fun _ _ hs ↦ hs.toReported) fun _ ↦ ?_
        refine Meets.bind (read_meets.mono (fun _ hs ↦ hs) (fun _ _ hs ↦ hs.2) fun _ _ hs ↦ hs.toReported) fun eager ↦ ?_
        exact Meets.each (I := fun _ ↦ SettledAt true) fun done l rest _ ↦ executeBatchStatement_meets E l
      · rename_i hforce
        obtain rfl := Bool.eq_false_iff.mpr hforce
        exact batchLoop_meets (lazyTurn_meets E) fun _ _ hs ↦ hs.toReported
    · exact Meets.pure fun _ hs ↦ hs
  · unfold execBatchEagerly extractBatch
    refine Meets.bind (S := fun _ ↦ SettledAt force) (Q := fun _ ↦ SettledAt force)
      (Meets.caught (S := fun _ ↦ SettledAt force) (engineCall_meets fun _ _ hs ↦ hs) fun e ↦ ?_) fun statements ↦ ?_
    · refine Meets.bind (update_meets (Q := SettledAt force) fun s hs ↦ ?_) fun _ ↦ Meets.exit fun _ hs ↦ hs.toReported
      split
      · exact hs.parse _
      · exact hs
    · exact Meets.each (I := fun _ ↦ SettledAt force) fun done statement rest _ ↦ executeBatchStatement_meets E _

end Steps

section Results

variable {Ω : Type} (E : BatchEngine Ω)

theorem BatchEffect.apply_over (inTxn : Bool) (earlier effect : BatchEffect) :
    (earlier.over effect).apply inTxn = effect.apply (earlier.apply inTxn) := by
  cases effect <;> rfl

/-- The last effect does what all of them do, one after the other. -/
theorem apply_lastEffect (inTxn : Bool) (history : List Call) :
    (lastEffect history).apply inTxn =
      (history.filter Call.succeeded).foldl (fun open? c ↦ c.effect.apply open?) inTxn := by
  unfold lastEffect
  generalize history.filter Call.succeeded = calls
  induction calls using List.reverseRecOn with
  | nil => rfl
  | append_singleton calls c ih =>
    rw [List.foldl_append, List.foldl_append, List.foldl_cons, List.foldl_cons, List.foldl_nil, List.foldl_nil,
      BatchEffect.apply_over, ih]

/-- The report of a batch, for any answers of the engine: however the batch ends, it
counts the calls that were executed and has their last effect on the transaction, so
that `in_txn` follows all of them, and nothing was handed over after a failure. A
batch that ends well has executed everything, and its count of changed rows is that
of the last call, unless the count of rows is not forced and a call returned rows. -/
theorem runBatch_report (v2 : Bool) (query : List Byte) (force : Bool) (w : Ω) :
    (runBatch E v2 query force w).2.info.completedStatements =
      (runBatch E v2 query force w).2.history.countP Call.succeeded ∧
    (∀ inTxn, (runBatch E v2 query force w).2.info.lastTransactionEffect.apply inTxn =
      ((runBatch E v2 query force w).2.history.filter Call.succeeded).foldl
        (fun open? c ↦ c.effect.apply open?) inTxn) ∧
    (∀ c ∈ (runBatch E v2 query force w).2.history.dropLast, c.succeeded = true) ∧
    ((runBatch E v2 query force w).1 = .ok ⟨⟩ →
      (∀ c ∈ (runBatch E v2 query force w).2.history, c.succeeded = true) ∧
      (runBatch E v2 query force w).2.info.rowsChanged =
        reportedRows force (runBatch E v2 query force w).2.history) := by
  have hstart : SettledAt force (BatchState.initial w) :=
    ⟨⟨rfl, rfl, fun c hc ↦ absurd hc List.not_mem_nil⟩, fun c hc ↦ absurd hc List.not_mem_nil, rfl, by
      simp [BatchState.initial, reportedRows]⟩
  have h : Ends (fun _ ↦ SettledAt force) (fun _ ↦ ReportedAt) (execBatch E v2 query force (.initial w)) :=
    execBatch_settled E query (.initial w) hstart
  have hreported : ∀ s : BatchState Ω, ReportedAt s →
      s.info.completedStatements = s.history.countP Call.succeeded ∧
      (∀ inTxn, s.info.lastTransactionEffect.apply inTxn =
        (s.history.filter Call.succeeded).foldl (fun open? c ↦ c.effect.apply open?) inTxn) ∧
      ∀ c ∈ s.history.dropLast, c.succeeded = true := by
    intro s hs
    refine ⟨hs.completed, fun inTxn ↦ ?_, fun c hc ↦ Call.succeeded_of_tally (hs.front c hc)⟩
    rw [hs.effect, apply_lastEffect]
  unfold runBatch
  cases hr : execBatch E v2 query force (.initial w) with
  | mk result s =>
    rw [hr] at h
    cases result with
    | ok _ =>
      obtain ⟨hcompleted, heffect, hfront⟩ := hreported s h.toReported
      exact ⟨hcompleted, heffect, hfront, fun _ ↦ ⟨fun c hc ↦ Call.succeeded_of_tally (h.tallied c hc), h.rows⟩⟩
    | error e =>
      obtain ⟨hcompleted, heffect, hfront⟩ := hreported s h
      exact ⟨hcompleted, heffect, hfront, fun hok ↦ by cases hok⟩

end Results

end PdoDuckdb.Bridge
