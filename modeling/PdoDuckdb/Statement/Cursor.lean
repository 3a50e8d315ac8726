import PdoDuckdb.Bytes
import PdoDuckdb.Library.Runs

namespace PdoDuckdb.Statement.Fetching

open Library

/-- What a turn of the loop of `pdo_duckdb_stmt_fetch` gets from the sandbox and the
native result: a refusal, a chunk, an error, or one whose text finds no memory. -/
inductive Answer (ρ : Type)
  | refused (reason : List Byte)
  | chunk (rows : List ρ)
  | failed (message : List Byte)
  | bailout

inductive Converted
  | ready
  | rejected (message : List Byte)
  | outOfMemory
  | bailout

inductive ErrorCode
  | general | streaming | sandbox
deriving DecidableEq, Repr

/-- What a fetch reports: a row to read the columns from, no row, or no row and an
error. No row of the chunk is there to convert when it is `stray`. -/
inductive Report (ρ : Type)
  | row (r : ρ)
  | nothing
  | error (code : ErrorCode) (message : List Byte)
  | bailout
  | stray

inductive Touch
  | fetch (result : ℕ)
  | destroy (result : ℕ)
deriving DecidableEq, Repr

def Touch.result : Touch → ℕ
  | fetch n => n
  | destroy n => n

/-- The fields of a `pdo_duckdb_stmt` that make its cursor. `stream` is what the
native result has yet to answer; results are numbered. -/
structure Cursor (ρ : Type) where
  hasResult : Bool
  started : Bool
  done : Bool
  chunk : Option (List ρ)
  chunkSize : ℕ
  cur : ℕ
  result : ℕ
  stream : List (Answer ρ)
  nextResult : ℕ
  touches : List Touch

variable {ρ : Type}

namespace Cursor

def fresh : Cursor ρ := ⟨false, false, false, none, 0, 0, 0, [], 0, []⟩

/-- `duckdb_fetch_chunk`. -/
def touch (c : Cursor ρ) : Cursor ρ := { c with touches := c.touches ++ [.fetch c.result] }

/-- `duckdb_destroy_result`. -/
def release (c : Cursor ρ) : Cursor ρ :=
  { c with hasResult := false, touches := c.touches ++ [.destroy c.result] }

/-- `pdo_duckdb_stmt_reset_result`. -/
def resetResult (c : Cursor ρ) : Cursor ρ :=
  { if c.hasResult then c.release else c with
    chunk := none, chunkSize := 0, cur := 0, started := false, done := false, stream := [] }

/-- `pdo_duckdb_stmt_fetched_row`. -/
def fetchedRow (convert : ρ → Converted) (c : Cursor ρ) : Report ρ × Cursor ρ :=
  match c.chunk.bind fun rows ↦ rows[c.cur]? with
  | none => (.stray, c)
  | some r =>
    match convert r with
    | .ready => (.row r, c)
    | .rejected message => (.error .streaming message, c)
    | .outOfMemory => (.nothing, c)
    | .bailout => (.bailout, c)

/-- The loop of `pdo_duckdb_stmt_fetch`. -/
def pull (convert : ρ → Converted) : List (Answer ρ) → Cursor ρ → Report ρ × Cursor ρ
  | [], c => (.nothing, { c.touch with chunk := none, done := true, stream := [] })
  | .refused reason :: _, c => (.error .sandbox reason, { c.resetResult with done := true })
  | .failed message :: _, c => (.error .streaming message, { c.touch.resetResult with done := true })
  | .bailout :: _, c => (.bailout, { c.touch.release with chunk := none, stream := [] })
  | .chunk rows :: rest, c =>
    let c := { c.touch with chunk := some rows, chunkSize := rows.length, cur := 0, stream := rest }
    if 0 < rows.length then c.fetchedRow convert
    else pull convert rest c

/-- `pdo_duckdb_stmt_fetch`. -/
def fetch (forward : Bool) (convert : ρ → Converted) (c : Cursor ρ) : Report ρ × Cursor ρ :=
  if ¬ c.hasResult ∨ c.done then (.nothing, c)
  else if ¬ forward then (.error .general (ascii "DuckDB PDO driver only supports forward-only cursors"), c)
  else if ¬ c.started then pull convert c.stream { c with started := true }
  else if c.cur + 1 < c.chunkSize then { c with cur := c.cur + 1 }.fetchedRow convert
  else pull convert c.stream { c with cur := c.cur + 1 }

end Cursor

/-- How an execute ends: without a result, with one that is destroyed at once, with
one whose columns cannot be read, or with a result. -/
inductive Execution (ρ : Type)
  | refused
  | failed
  | discarded
  | executed (stream : List (Answer ρ))

/-- `pdo_duckdb_stmt_execute`, as far as the cursor goes. -/
def Cursor.execute (c : Cursor ρ) : Execution ρ → Cursor ρ
  | .refused => c.resetResult
  | .failed => { c.resetResult with result := c.nextResult, nextResult := c.nextResult + 1 }.release
  | .discarded => { c.resetResult with hasResult := true, result := c.nextResult, nextResult := c.nextResult + 1 }.resetResult
  | .executed stream =>
    { c.resetResult with hasResult := true, result := c.nextResult, nextResult := c.nextResult + 1, stream := stream }

/-- A fetch of PDO: forward or not, and what the outside makes of a row then. -/
structure Call (ρ : Type) where
  forward : Bool
  convert : ρ → Converted

section Delivery

/-- What a result holds for its cursor: rows, up to where it stops. -/
inductive Item (ρ : Type)
  | row (r : ρ)
  | stop (code : ErrorCode) (message : List Byte)
  | lost

def items : List (Answer ρ) → List (Item ρ)
  | [] => []
  | .refused reason :: _ => [.stop .sandbox reason]
  | .failed message :: _ => [.stop .streaming message]
  | .bailout :: _ => [.lost]
  | .chunk rows :: rest => rows.map .row ++ items rest

/-- A cursor over the items themselves: what is left, or that it has told the end, or
that the result is released. -/
inductive Place (ρ : Type)
  | before (l : List (Item ρ))
  | ended
  | released

def Converted.report (r : ρ) : Converted → Report ρ
  | .ready => .row r
  | .rejected message => .error .streaming message
  | .outOfMemory => .nothing
  | .bailout => .bailout

def Place.fetch (call : Call ρ) : Place ρ → Report ρ × Place ρ
  | .ended => (.nothing, .ended)
  | .released => (.nothing, .released)
  | .before l =>
    if ¬ call.forward then (.error .general (ascii "DuckDB PDO driver only supports forward-only cursors"), .before l)
    else
      match l with
      | [] => (.nothing, .ended)
      | .row r :: l => ((call.convert r).report r, .before l)
      | .stop code message :: _ => (.error code message, .released)
      | .lost :: _ => (.bailout, .released)

def fetchAll {σ : Type} (fetch : Call ρ → σ → Report ρ × σ) : List (Call ρ) → σ → List (Report ρ) × σ
  | [], s => ([], s)
  | call :: calls, s =>
    ((fetch call s).1 :: (fetchAll fetch calls (fetch call s).2).1, (fetchAll fetch calls (fetch call s).2).2)

def Shows (c : Cursor ρ) : Place ρ → Prop
  | .before l => c.hasResult = true ∧ c.done = false ∧
      (c.started = false ∧ l = items c.stream ∨
        c.started = true ∧ ∃ rows, c.chunk = some rows ∧ c.chunkSize = rows.length ∧ c.cur < rows.length ∧
          l = (rows.drop (c.cur + 1)).map .row ++ items c.stream)
  | .ended => c.hasResult = true ∧ c.done = true
  | .released => c.hasResult = false

variable {c : Cursor ρ} {convert : ρ → Converted}

theorem fetchedRow_eq {rows : List ρ} {r : ρ} (hchunk : c.chunk = some rows) (hr : rows[c.cur]? = some r) :
    c.fetchedRow convert = ((convert r).report r, c) := by
  unfold Cursor.fetchedRow
  rw [hchunk, Option.bind_some, hr]
  cases h : convert r <;> simp only [h, Converted.report]

theorem hasResult_resetResult : c.resetResult.hasResult = false := by
  unfold Cursor.resetResult
  cases h : c.hasResult
  · exact h
  · rfl

/-- The loop finds the next item, whatever chunks are empty before it. -/
theorem pull_shows (l : List (Answer ρ)) (hhas : c.hasResult = true) (hdone : c.done = false)
    (hstarted : c.started = true) :
    (c.pull convert l).1 = (Place.fetch ⟨true, convert⟩ (.before (items l))).1 ∧
      Shows (c.pull convert l).2 (Place.fetch ⟨true, convert⟩ (.before (items l))).2 := by
  induction l generalizing c with
  | nil => exact ⟨rfl, hhas, rfl⟩
  | cons answer rest ih =>
    cases answer with
    | refused reason => exact ⟨rfl, hasResult_resetResult⟩
    | failed message => exact ⟨rfl, hasResult_resetResult⟩
    | bailout => exact ⟨rfl, rfl⟩
    | chunk rows =>
      cases rows with
      | nil => exact ih hhas hdone hstarted
      | cons r rows =>
        have hrow : (c.pull convert (.chunk (r :: rows) :: rest)) =
            ((convert r).report r, { c.touch with
              chunk := some (r :: rows), chunkSize := (r :: rows).length, cur := 0, stream := rest }) := by
          rw [Cursor.pull, if_pos (show 0 < (r :: rows).length from Nat.succ_pos _)]
          exact fetchedRow_eq rfl rfl
        rw [hrow]
        exact ⟨rfl, hhas, hdone, .inr ⟨hstarted, r :: rows, rfl, rfl, Nat.succ_pos _, rfl⟩⟩

theorem fetch_shows {place : Place ρ} (h : Shows c place) (call : Call ρ) :
    (c.fetch call.forward call.convert).1 = (place.fetch call).1 ∧
      Shows (c.fetch call.forward call.convert).2 (place.fetch call).2 := by
  unfold Cursor.fetch
  cases place with
  | ended =>
    rw [if_pos (.inr h.2)]
    exact ⟨rfl, h⟩
  | released =>
    have hhas : c.hasResult = false := h
    rw [if_pos (.inl (by rw [hhas]; decide))]
    exact ⟨rfl, h⟩
  | before l =>
    obtain ⟨hhas, hdone, hplace⟩ := h
    rw [if_neg (by rw [hhas, hdone]; decide)]
    obtain ⟨forward, convert⟩ := call
    cases forward with
    | false => exact ⟨rfl, hhas, hdone, hplace⟩
    | true =>
      rw [if_neg (not_not.mpr rfl)]
      rcases hplace with ⟨hstarted, rfl⟩ | ⟨hstarted, rows, hchunk, hsize, hcur, rfl⟩
      · rw [if_pos (by rw [hstarted]; decide)]
        exact pull_shows c.stream hhas hdone rfl
      rw [if_neg (by rw [hstarted]; decide)]
      split
      · rename_i hnext
        rw [hsize] at hnext
        rw [fetchedRow_eq (c := { c with cur := c.cur + 1 }) hchunk (List.getElem?_eq_getElem hnext), List.drop_eq_getElem_cons hnext]
        exact ⟨rfl, hhas, hdone, .inr ⟨hstarted, rows, hchunk, hsize, hnext, rfl⟩⟩
      · rename_i hlast
        rw [hsize] at hlast
        rw [List.drop_eq_nil_of_le (Nat.not_lt.mp hlast)]
        exact pull_shows c.stream hhas hdone hstarted

theorem fetchAll_shows (calls : List (Call ρ)) {place : Place ρ} (h : Shows c place) :
    (fetchAll (fun call ↦ Cursor.fetch call.forward call.convert) calls c).1 = (fetchAll Place.fetch calls place).1 ∧
      Shows (fetchAll (fun call ↦ Cursor.fetch call.forward call.convert) calls c).2 (fetchAll Place.fetch calls place).2 := by
  induction calls generalizing c place with
  | nil => exact ⟨rfl, h⟩
  | cons call calls ih =>
    obtain ⟨hreport, hshows⟩ := fetch_shows h call
    obtain ⟨hreports, hend⟩ := ih hshows
    exact ⟨congrArg₂ List.cons hreport hreports, hend⟩

/-- Whatever the chunks, an executed statement reports the rows of its result in
order, once each, up to where it ends or stops; it then holds its result exactly
when that has not stopped. -/
theorem execute_delivers (c : Cursor ρ) (stream : List (Answer ρ)) (calls : List (Call ρ)) :
    (fetchAll (fun call ↦ Cursor.fetch call.forward call.convert) calls (c.execute (.executed stream))).1 =
        (fetchAll Place.fetch calls (.before (items stream))).1 ∧
      ((fetchAll (fun call ↦ Cursor.fetch call.forward call.convert) calls (c.execute (.executed stream))).2.hasResult = true ↔
        (fetchAll Place.fetch calls (.before (items stream))).2 ≠ .released) := by
  have hstart : Shows (c.execute (.executed stream)) (.before (items stream)) := ⟨rfl, rfl, .inl ⟨rfl, rfl⟩⟩
  obtain ⟨hreports, hshows⟩ := fetchAll_shows calls hstart
  refine ⟨hreports, ?_⟩
  generalize (fetchAll Place.fetch calls (.before (items stream))).2 = place at hshows
  cases place with
  | before l => exact ⟨fun _ h ↦ (by cases h), fun _ ↦ hshows.1⟩
  | ended => exact ⟨fun _ h ↦ (by cases h), fun _ ↦ hshows.1⟩
  | released => exact ⟨fun h ↦ absurd h (by rw [hshows]; decide), fun h ↦ absurd rfl h⟩

end Delivery

section Lifecycle

inductive Event (ρ : Type)
  | execute (o : Execution ρ)
  | fetch (call : Call ρ)
  | close

/-- A call of PDO on the statement; `close` is for a closed cursor, a failed binding
and the end of the statement. -/
def step (c : Cursor ρ) : Event ρ → Cursor ρ
  | .execute o => c.execute o
  | .fetch call => (c.fetch call.forward call.convert).2
  | .close => c.resetResult

def Cursor.history (c : Cursor ρ) (n : ℕ) : List Touch := c.touches.filter fun t ↦ t.result = n

/-- Every result but the one a cursor holds is destroyed, once, after all the fetches
from it. -/
structure Tidy (c : Cursor ρ) : Prop where
  current : c.hasResult = true → c.result < c.nextResult ∧ ∃ k, c.history c.result = List.replicate k (.fetch c.result)
  past : ∀ n < c.nextResult, (c.hasResult = true → n ≠ c.result) →
    ∃ k, c.history n = List.replicate k (.fetch n) ++ [.destroy n]
  future : ∀ n, c.nextResult ≤ n → c.history n = []

variable {c : Cursor ρ}

theorem Tidy.fresh : Tidy (.fresh : Cursor ρ) :=
  ⟨fun h ↦ (by cases h), fun n h ↦ absurd h (Nat.not_lt_zero n), fun _ _ ↦ rfl⟩

theorem history_own {c' : Cursor ρ} {t : Touch} (h : c'.touches = c.touches ++ [t]) :
    c'.history t.result = c.history t.result ++ [t] := by
  unfold Cursor.history
  rw [h, List.filter_append]
  simp

theorem history_other {c' : Cursor ρ} {t : Touch} (h : c'.touches = c.touches ++ [t]) {n : ℕ} (hn : n ≠ t.result) :
    c'.history n = c.history n := by
  unfold Cursor.history
  rw [h, List.filter_append]
  simp [hn.symm]

theorem Tidy.touch (h : Tidy c) (hhas : c.hasResult = true) : Tidy c.touch := by
  obtain ⟨hlt, k, hk⟩ := h.current hhas
  refine ⟨fun _ ↦ ⟨hlt, k + 1, ?_⟩, fun n hn hne ↦ ?_, fun n hn ↦ ?_⟩
  · rw [List.replicate_succ']
    exact (history_own (t := .fetch c.result) rfl).trans (congrArg (· ++ [Touch.fetch c.result]) hk)
  · rw [history_other (t := .fetch c.result) rfl (hne hhas)]
    exact h.past n hn hne
  · rw [history_other (t := .fetch c.result) rfl (Nat.ne_of_gt (Nat.lt_of_lt_of_le hlt hn))]
    exact h.future n hn

theorem Tidy.release (h : Tidy c) (hhas : c.hasResult = true) : Tidy c.release := by
  obtain ⟨hlt, k, hk⟩ := h.current hhas
  refine ⟨fun h ↦ (by cases h), fun n hn _ ↦ ?_, fun n hn ↦ ?_⟩
  · by_cases hresult : n = c.result
    · subst hresult
      exact ⟨k, (history_own (t := .destroy c.result) rfl).trans (congrArg (· ++ [Touch.destroy c.result]) hk)⟩
    · rw [history_other (t := .destroy c.result) rfl hresult]
      exact h.past n hn fun _ ↦ hresult
  · rw [history_other (t := .destroy c.result) rfl (Nat.ne_of_gt (Nat.lt_of_lt_of_le hlt hn))]
    exact h.future n hn

/-- A new result. -/
theorem Tidy.take (h : Tidy c) (hhas : c.hasResult = false) {new : ℕ} (hnew : c.nextResult = new) :
    Tidy { c with hasResult := true, result := new, nextResult := new + 1 } := by
  subst hnew
  refine ⟨fun _ ↦ ⟨Nat.lt_succ_self _, 0, h.future _ (Nat.le_refl _)⟩, fun n hn hne ↦ ?_, fun n hn ↦ h.future n (Nat.le_of_succ_le hn)⟩
  exact h.past n (Nat.lt_of_le_of_ne (Nat.le_of_lt_succ hn) (hne rfl)) fun h ↦ absurd h (by rw [hhas]; decide)

/-- The fields of the cursor alone do not matter. -/
theorem Tidy.moved (h : Tidy c) (started done : Bool) (chunk : Option (List ρ)) (chunkSize cur : ℕ)
    (stream : List (Answer ρ)) : Tidy { c with
      started := started, done := done, chunk := chunk, chunkSize := chunkSize, cur := cur, stream := stream } :=
  ⟨h.current, h.past, h.future⟩

theorem nextResult_resetResult : c.resetResult.nextResult = c.nextResult := by
  unfold Cursor.resetResult
  split <;> rfl

theorem Tidy.resetResult (h : Tidy c) : Tidy c.resetResult := by
  refine Tidy.moved ?_ ..
  split
  · rename_i hhas
    exact h.release hhas
  · exact h

theorem Tidy.execute (h : Tidy c) (o : Execution ρ) : Tidy (c.execute o) := by
  have htaken := h.resetResult.take hasResult_resetResult nextResult_resetResult
  cases o with
  | refused => exact h.resetResult
  | failed => exact htaken.release rfl
  | discarded => exact htaken.resetResult
  | executed stream => exact htaken.moved ..

theorem fetchedRow_snd (convert : ρ → Converted) : (c.fetchedRow convert).2 = c := by
  unfold Cursor.fetchedRow
  split
  · rfl
  · split <;> rfl

theorem Tidy.pull (h : Tidy c) (hhas : c.hasResult = true) (convert : ρ → Converted) (l : List (Answer ρ)) :
    Tidy (c.pull convert l).2 := by
  induction l generalizing c with
  | nil => exact (h.touch hhas).moved ..
  | cons answer rest ih =>
    cases answer with
    | refused reason => exact h.resetResult.moved ..
    | failed message => exact (h.touch hhas).resetResult.moved ..
    | bailout => exact ((h.touch hhas).release hhas).moved ..
    | chunk rows =>
      unfold Cursor.pull
      dsimp only
      split
      · rw [fetchedRow_snd]
        exact (h.touch hhas).moved ..
      · exact ih ((h.touch hhas).moved ..) hhas

theorem Tidy.fetch (h : Tidy c) (forward : Bool) (convert : ρ → Converted) : Tidy (c.fetch forward convert).2 := by
  unfold Cursor.fetch
  split
  · exact h
  rename_i hover
  have hhas : c.hasResult = true := not_not.mp fun hhas ↦ hover (.inl hhas)
  split
  · exact h
  split
  · exact (h.moved true c.done c.chunk c.chunkSize c.cur c.stream).pull hhas convert c.stream
  split
  · rw [fetchedRow_snd]
    exact h.moved ..
  · exact (h.moved c.started c.done c.chunk c.chunkSize (c.cur + 1) c.stream).pull hhas convert c.stream

theorem Tidy.step (h : Tidy c) (e : Event ρ) : Tidy (Fetching.step c e) := by
  cases e with
  | execute o => exact h.execute o
  | fetch call => exact h.fetch call.forward call.convert
  | close => exact h.resetResult

/-- Whatever calls a statement has had, only the result it holds may still be fetched
from, and closing it leaves every result it ever had destroyed, once. -/
theorem run_tidy (events : List (Event ρ)) :
    Tidy (Runs.run step .fresh events) ∧
    ∀ n < (Runs.run step .fresh events).nextResult,
      ∃ k, (Runs.run step .fresh (events ++ [.close])).history n = List.replicate k (.fetch n) ++ [.destroy n] := by
  have htidy : Tidy (Runs.run step .fresh events) := Runs.invariant (fun _ e h ↦ h.step e) .fresh events
  refine ⟨htidy, fun n hn ↦ ?_⟩
  rw [Runs.run_snoc]
  refine (htidy.step .close).past n ?_ fun h ↦ absurd h ?_
  · exact Nat.lt_of_lt_of_eq hn nextResult_resetResult.symm
  · exact Bool.eq_false_iff.mp hasResult_resetResult

end Lifecycle

end PdoDuckdb.Statement.Fetching
