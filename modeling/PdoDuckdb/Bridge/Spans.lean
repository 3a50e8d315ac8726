import PdoDuckdb.Bridge.Reports
import PdoDuckdb.Library.Pieces
import Mathlib.Data.List.Forall2

namespace PdoDuckdb.Bridge

open Library Library.Exits

section Pieces

def Located.piece (l : Located) : ℕ × List Byte := (l.start, l.statement.query)

def Located.call (l : Located) (a : Answer) : Call :=
  ⟨some l.start, l.statement.query, classifyStatement l.statement.parsed, transactionEffect l.statement.parsed,
    controlStatement true l.statement.parsed, a⟩

def Located.Runs (l : Located) (c : Call) : Prop := c = l.call c.answer

def unparsedCall (remaining : List Byte) (a : Answer) : Call := ⟨none, remaining, ⟨.other, false⟩, .none, false, a⟩

/-- What was handed over of a source: the first of the statements that the parser
returned, each once and in order, or all of them and then the rest of the source. -/
def Handed (source : List Byte) (returned : List Located) (history : List Call) : Prop :=
  ∃ c calls, Pieces source (returned.map Located.piece) c ∧
    List.Forall₂ Located.Runs (returned.take calls.length) calls ∧
    (history = calls ∨
      calls.length = returned.length ∧ ∃ a, history = calls ++ [unparsedCall (source.drop c) a])

/-- All that the parser returned was handed over, and then perhaps the rest. -/
def Delivered (source : List Byte) (returned : List Located) (history : List Call) : Prop :=
  ∃ c calls, Pieces source (returned.map Located.piece) c ∧ List.Forall₂ Located.Runs returned calls ∧
    (history = calls ∨ ∃ a, history = calls ++ [unparsedCall (source.drop c) a])

variable {source : List Byte} {returned : List Located} {history calls : List Call}

theorem Delivered.handed (h : Delivered source returned history) : Handed source returned history := by
  obtain ⟨c, calls, hpieces, hruns, hhistory⟩ := h
  have hlength := hruns.length_eq
  refine ⟨c, calls, hpieces, ?_, hhistory.imp_right fun ha ↦ ⟨hlength.symm, ha⟩⟩
  rwa [List.take_of_length_le (Nat.le_of_eq hlength)]

theorem texts_of_runs (h : List.Forall₂ Located.Runs returned calls) :
    calls.map Call.text = (returned.map Located.piece).map Prod.snd := by
  induction h with
  | nil => rfl
  | cons h _ ih =>
    rw [List.map_cons, ih, h]
    rfl

/-- Nothing of the source is handed over twice. -/
theorem Handed.sublist (h : Handed source returned history) :
    (history.map Call.text).flatten.Sublist source := by
  obtain ⟨c, calls, hpieces, hruns, hhistory⟩ := h
  have hsource := hpieces.sublist
  rcases hhistory with rfl | ⟨hlength, a, rfl⟩
  · rw [texts_of_runs hruns, List.map_take, List.map_take]
    refine List.Sublist.trans ?_ ((List.sublist_append_left _ _).trans hsource)
    rw [← List.take_append_drop history.length ((returned.map Located.piece).map Prod.snd)]
    rw [List.flatten_append, List.take_append_drop]
    exact List.sublist_append_left _ _
  · rw [List.take_of_length_le (Nat.le_of_eq hlength.symm)] at hruns
    rw [List.map_append, List.flatten_append, texts_of_runs hruns]
    simpa [unparsedCall] using hsource

end Pieces

section Steps

variable {Ω α : Type} (E : BatchEngine Ω) {source : List Byte} {ls eager : List Located} {c : ℕ} {h : List Call}

structure Stands (source : List Byte) (ls : List Located) (c : ℕ) (h : List Call) (eager : List Located)
    (parser : BatchParser) (returned : List Located) (history : List Call) (collected : List Located)
    (parseFailed : Bool) : Prop where
  normalized : parser.normalized = source
  consumed : parser.consumed = c
  returned : returned = ls
  history : history = h
  collected : collected = eager
  parsing : parseFailed = false
  pieces : Pieces source (ls.map Located.piece) c

def StandsAt (source : List Byte) (ls : List Located) (c : ℕ) (h : List Call) (eager : List Located)
    (s : BatchState Ω) : Prop :=
  Stands source ls c h eager s.parser s.returned s.history s.eager s.info.parseFailed

theorem locate_eq_some {p : BatchParser} {t : BatchToken} {query : List Byte} {tokens : List BatchToken} {start : ℕ}
    (h : p.locate t query tokens = some start) :
    query ≠ [] ∧ p.consumed ≤ start ∧ start ≤ p.normalized.length ∧
      (p.normalized.drop start).take query.length = query := by
  unfold BatchParser.locate at h
  split at h
  · cases h
  split at h
  · cases h
  split at h
  · rename_i hlocated
    obtain rfl := Option.some.inj h
    exact hlocated
  · cases h

def HaltsAt (source : List Byte) (ls : List Located) (c : ℕ) (h : List Call) (eager : List Located)
    (e : BatchExit) (s : BatchState Ω) : Prop :=
  e ≠ .endless ∧ StandsAt source ls c h eager s

theorem engineCall_halts {f : Ω → Except Thrown α × Ω} :
    Meets (StandsAt source ls c h eager) (engineCall f) (fun _ ↦ StandsAt source ls c h eager)
      (HaltsAt source ls c h eager) := by
  intro s hs
  unfold engineCall
  cases (f s.engine).1 with
  | ok a => exact hs
  | error e => exact ⟨by simp, hs⟩

theorem ofExcept_halts {x : Except Thrown α} :
    Meets (StandsAt (Ω := Ω) source ls c h eager) (ofExcept x) (fun _ ↦ StandsAt source ls c h eager)
      (HaltsAt source ls c h eager) := by
  cases x with
  | ok a => exact Meets.pure fun _ hs ↦ hs
  | error e => exact Meets.exit fun _ hs ↦ ⟨by simp, hs⟩

/-- A statement is found at or after the end of the one before, and ends later. -/
theorem place_stands (statement : Statement) (t : BatchToken) :
    Meets (StandsAt source ls c h eager) (BatchParser.place E statement t)
      (fun r s ↦ ∃ l, r = some l ∧ c < l.start + l.statement.query.length ∧
        StandsAt source (ls ++ [l]) (l.start + l.statement.query.length) h eager s)
      (HaltsAt source ls c h eager) := by
  unfold BatchParser.place
  refine Meets.bind ofExcept_halts fun tokens ↦ ?_
  refine Meets.bind (Meets.step (Q := fun p s ↦ p = s.parser ∧ StandsAt source ls c h eager s)
    fun s hs ↦ ⟨rfl, hs⟩) fun parser ↦ ?_
  split
  · exact Meets.exit fun s hs ↦ ⟨by simp [BatchExit.standard], hs.2⟩
  rename_i start hlocate
  obtain ⟨hne, hstart, hle, hquery⟩ := locate_eq_some hlocate
  refine Meets.bind (Q := fun _ s ↦ c < start + statement.query.length ∧
    StandsAt source (ls ++ [⟨start, statement⟩]) (start + statement.query.length) h eager s) (update_meets ?_) fun _ ↦ ?_
  · rintro s ⟨rfl, hs⟩
    have hpos := List.length_pos_iff.mpr hne
    rw [hs.consumed] at hstart
    rw [hs.normalized] at hle hquery
    refine ⟨by omega, ⟨hs.normalized, rfl, by rw [hs.returned], hs.history, hs.collected, hs.parsing, ?_⟩⟩
    have hlength : start + statement.query.length ≤ source.length := by
      have := congrArg List.length hquery
      rw [List.length_take, List.length_drop] at this
      omega
    rw [List.map_append]
    exact hs.pieces.snoc hstart hlength hquery
  · exact Meets.pure fun s hs ↦ ⟨_, rfl, hs⟩

/-- What `BatchParser::Next` does to what stands. -/
def Advanced (source : List Byte) (ls : List Located) (c : ℕ) (h : List Call) (eager : List Located)
    (r : Option Located) (s : BatchState Ω) : Prop :=
  match r with
  | none => StandsAt source ls c h eager s
  | some l => c < l.start + l.statement.query.length ∧
      StandsAt source (ls ++ [l]) (l.start + l.statement.query.length) h eager s

theorem next_advances :
    Meets (StandsAt source ls c h eager) (BatchParser.next E) (Advanced source ls c h eager)
      (HaltsAt source ls c h eager) := by
  unfold BatchParser.next
  refine Meets.bind engineCall_halts fun more ↦ ?_
  split
  · refine Meets.bind engineCall_halts fun statement ↦ ?_
    unfold BatchParser.take
    refine Meets.bind (Q := fun _ ↦ StandsAt source ls c h eager) (update_meets fun s hs ↦ ?_) fun _ ↦ ?_
    · exact ⟨hs.normalized, hs.consumed, hs.returned, hs.history, hs.collected, hs.parsing, hs.pieces⟩
    refine Meets.bind (Meets.step (Q := fun _ ↦ StandsAt source ls c h eager) fun _ hs ↦ hs) fun parser ↦ ?_
    split
    · exact Meets.exit fun s hs ↦ ⟨by simp [BatchExit.standard], hs⟩
    · refine (place_stands E statement _).post fun r s hs ↦ ?_
      obtain ⟨l, rfl, hs⟩ := hs
      exact hs
  · exact Meets.pure fun _ hs ↦ hs

theorem submit_stands {call : Answer → Call} {f : Ω → Except Thrown Answer × Ω} :
    Meets (StandsAt source ls c h eager) (submit call f)
      (fun r ↦ StandsAt source ls c (h ++ [call (.result r)]) eager)
      (fun e s ↦ ∃ a, HaltsAt source ls c (h ++ [call a]) eager e s) := by
  unfold submit
  refine Meets.bind (Meets.step (Q := fun _ ↦ StandsAt source ls c h eager) fun s hs ↦ hs) fun a ↦ ?_
  refine Meets.bind (update_meets (Q := StandsAt source ls c (h ++ [call a]) eager) fun s hs ↦ ?_) fun _ ↦ ?_
  · exact ⟨hs.normalized, hs.consumed, hs.returned, hs.history ▸ rfl, hs.collected, hs.parsing, hs.pieces⟩
  cases a with
  | result r => exact Meets.pure fun s hs ↦ hs
  | prepareFailed =>
    refine Meets.bind (update_meets (Q := StandsAt source ls c (h ++ [call .prepareFailed]) eager) fun s hs ↦ hs) fun _ ↦ ?_
    exact Meets.exit fun s hs ↦ ⟨_, by simp [BatchExit.standard], hs⟩
  | thrown => exact Meets.exit fun s hs ↦ ⟨_, by simp [BatchExit.standard], hs⟩

/-- Reading a result changes only the rest of the report. -/
theorem finishBatchResult_keeps {P : BatchState Ω → Prop} {output : QueryResult} {classification : SqlInfo}
    {effect : BatchEffect} {control force : Bool}
    (hP : ∀ s info saw, info.parseFailed = s.info.parseFailed → P s →
      P { s with info := info, sawQueryResult := saw }) :
    Meets P (finishBatchResult output classification effect control force) (fun _ ↦ P)
      fun e s ↦ e ≠ .endless ∧ P s := by
  unfold finishBatchResult
  split
  · exact Meets.exit fun s hs ↦ ⟨by simp [BatchExit.standard], hs⟩
  · refine Meets.bind (update_meets (Q := P) fun s hs ↦ hP s _ s.sawQueryResult rfl hs) fun _ ↦ ?_
    unfold countResult
    split
    · exact Meets.exit fun s hs ↦ ⟨by simp [BatchExit.standard], hs⟩
    · exact update_meets fun s hs ↦ hP s _ _ rfl hs

theorem StandsAt.report {s : BatchState Ω} {info : ExecInfo} {saw : Bool} (hinfo : info.parseFailed = s.info.parseFailed)
    (hs : StandsAt source ls c h eager s) :
    StandsAt source ls c h eager { s with info := info, sawQueryResult := saw } :=
  ⟨hs.normalized, hs.consumed, hs.returned, hs.history, hs.collected, hinfo.trans hs.parsing, hs.pieces⟩

theorem executeBatchStatement_stands (force : Bool) (l : Located) :
    Meets (StandsAt source ls c h eager) (executeBatchStatement E true force l)
      (fun _ s ↦ ∃ a, StandsAt source ls c (h ++ [l.call a]) eager s)
      (fun e s ↦ ∃ a, HaltsAt source ls c (h ++ [l.call a]) eager e s) := by
  unfold executeBatchStatement
  refine Meets.bind (Meets.step (Q := fun _ ↦ StandsAt source ls c h eager) fun _ hs ↦ hs) fun canPrepare ↦ ?_
  refine Meets.bind submit_stands fun output ↦ ?_
  exact (finishBatchResult_keeps fun s info saw hinfo hs ↦ StandsAt.report hinfo hs).mono (fun _ hs ↦ hs)
    (fun _ s hs ↦ ⟨_, hs⟩) fun e s hs ↦ ⟨_, hs⟩

end Steps

section Runs

variable {Ω : Type} (E : BatchEngine Ω) {source : List Byte} {ls eager : List Located} {c : ℕ} {h : List Call}

def ForwardedAt (returned : List Located) (h : List Call) (remaining : List Byte) (s : BatchState Ω) : Prop :=
  s.returned = returned ∧ ∃ a, s.history = h ++ [unparsedCall remaining a]

theorem dispatchUnparsed_forwards {returned : List Located} {force : Bool} (remaining : List Byte) :
    Meets (fun s ↦ s.returned = returned ∧ s.history = h) (dispatchUnparsed (Ω := Ω) E force remaining)
      (fun _ ↦ ForwardedAt returned h remaining)
      (fun e s ↦ e ≠ .endless ∧ ForwardedAt returned h remaining s) := by
  unfold dispatchUnparsed submit
  refine Meets.bind (Q := fun _ ↦ ForwardedAt returned h remaining) ?_ fun output ↦ ?_
  · refine Meets.bind (Meets.step (Q := fun _ s ↦ s.returned = returned ∧ s.history = h) fun s hs ↦ hs) fun a ↦ ?_
    refine Meets.bind (update_meets (Q := ForwardedAt returned h remaining) fun s hs ↦ ⟨hs.1, a, hs.2 ▸ rfl⟩) fun _ ↦ ?_
    cases a with
    | result r => exact Meets.pure fun s hs ↦ hs
    | prepareFailed =>
      refine Meets.bind (update_meets (Q := ForwardedAt returned h remaining) fun s hs ↦ hs) fun _ ↦ ?_
      exact Meets.exit fun s hs ↦ ⟨by simp [BatchExit.standard], hs⟩
    | thrown => exact Meets.exit fun s hs ↦ ⟨by simp [BatchExit.standard], hs⟩
  · refine Meets.bind (update_meets (Q := ForwardedAt returned h remaining) fun s hs ↦ hs) fun _ ↦ ?_
    exact finishBatchResult_keeps fun s info saw _ hs ↦ hs

theorem handed_take {source : List Byte} {done rest : List Located} {h : List Call}
    (hpieces : Pieces source ((done ++ rest).map Located.piece) c) (hruns : List.Forall₂ Located.Runs done h) :
    Handed source (done ++ rest) h := by
  refine ⟨c, h, hpieces, ?_, .inl rfl⟩
  rwa [← hruns.length_eq, List.take_left]

def LazyExit (source : List Byte) (e : BatchExit) (s : BatchState Ω) : Prop :=
  e ≠ .endless ∧ Handed source s.returned s.history

theorem nextStatement_lazy (hruns : List.Forall₂ Located.Runs ls h) :
    Meets (StandsAt source ls c h []) (nextStatement E false)
      (fun r s ↦ Advanced source ls c h [] r s ∨ r = none ∧ ForwardedAt ls h (source.drop c) s) (LazyExit source) := by
  have hstands : ∀ s : BatchState Ω, StandsAt source ls c h [] s → Handed source s.returned s.history := by
    intro s hs
    rw [hs.returned, hs.history]
    exact Delivered.handed ⟨c, h, hs.pieces, hruns, .inl rfl⟩
  have hforwarded : ∀ s : BatchState Ω, Pieces source (ls.map Located.piece) c →
      ForwardedAt ls h (source.drop c) s → Handed source s.returned s.history := by
    rintro s hpieces ⟨hreturned, a, hhistory⟩
    rw [hreturned, hhistory]
    exact Delivered.handed ⟨c, h, hpieces, hruns, .inr ⟨a, rfl⟩⟩
  unfold nextStatement
  refine Meets.caught ((next_advances E).post fun r s hs ↦ .inl hs) fun e ↦ Meets.given fun he ↦ ?_
  intro s hs
  refine Meets.bind (Q := fun _ ↦ ForwardedAt ls h (source.drop c)) ?_
    (fun _ ↦ Meets.pure fun s hs ↦ .inr ⟨rfl, hs⟩) s hs
  unfold afterParseError
  split
  · exact absurd rfl he
  split
  · refine Meets.bind (update_meets (Q := fun s ↦ s.parser.remaining = source.drop c ∧ s.returned = ls ∧ s.history = h)
      fun s hs ↦ ⟨?_, hs.returned, hs.history⟩) fun _ ↦ ?_
    · unfold BatchParser.remaining
      exact congrArg₂ (fun n (l : List Byte) ↦ l.drop n) hs.consumed hs.normalized
    rw [if_neg Bool.false_ne_true]
    refine Meets.bind (Meets.step (Q := fun remaining s ↦ remaining = source.drop c ∧ s.returned = ls ∧ s.history = h)
      fun s hs ↦ hs) fun remaining ↦ Meets.given fun hremaining ↦ ?_
    subst hremaining
    exact (dispatchUnparsed_forwards E _).mono (fun _ hs ↦ hs) (fun _ _ hs ↦ hs)
      fun e t ht ↦ ⟨ht.1, hforwarded t hs.pieces ht.2⟩
  · exact Meets.exit fun s hs ↦ ⟨by simp, hstands s hs⟩

/-- A turn of the lazy loop hands over the statement that it has parsed. -/
theorem lazyTurn_stands (hruns : List.Forall₂ Located.Runs ls h) :
    Meets (StandsAt source ls c h []) (lazyTurn E)
      (Meets.Turned (fun s ↦ (∃ ls c h, StandsAt source ls c h [] s ∧ List.Forall₂ Located.Runs ls h) ∧
        source.length - s.parser.consumed < source.length - c)
        fun _ s ↦ Delivered source s.returned s.history) (LazyExit source) := by
  intro s hs
  have hpieces := hs.pieces
  refine Meets.bind (nextStatement_lazy E hruns) (fun next ↦ ?_) s hs
  cases next with
  | none =>
    refine Meets.pure fun s hs ↦ ?_
    rcases hs with hs | ⟨_, hreturned, a, hhistory⟩
    · exact ⟨c, h, hs.returned ▸ hs.pieces, hs.returned ▸ hruns, .inl hs.history⟩
    · exact ⟨c, h, hreturned ▸ hpieces, hreturned ▸ hruns, .inr ⟨a, hhistory⟩⟩
  | some l =>
    have hcall : ∀ a, List.Forall₂ Located.Runs (ls ++ [l]) (h ++ [l.call a]) := fun a ↦
      List.rel_append hruns (.cons rfl .nil)
    refine Meets.bind (Q := fun _ s ↦ c < l.start + l.statement.query.length ∧
        ∃ a, StandsAt source (ls ++ [l]) (l.start + l.statement.query.length) (h ++ [l.call a]) [] s)
      ?_ fun _ ↦ ?_
    · intro s hs
      rcases hs with ⟨hlt, hs⟩ | ⟨hnone, _⟩
      · refine ((executeBatchStatement_stands E false l).mono (fun _ hs ↦ hs) (fun _ s hs ↦ ⟨hlt, hs⟩) ?_) s hs
        rintro e s ⟨a, he, hs⟩
        refine ⟨he, ?_⟩
        rw [hs.returned, hs.history]
        exact Delivered.handed ⟨_, _, hs.pieces, hcall a, .inl rfl⟩
      · cases hnone
    · refine Meets.pure ?_
      rintro s ⟨hlt, a, hs⟩
      have hle := hs.pieces.le_length
      refine ⟨⟨_, _, _, hs, hcall a⟩, ?_⟩
      rw [hs.consumed]
      omega

/-- What is left by the exits of a batch that is parsed first: a parse error comes
before anything is handed over. -/
def EagerExit (source : List Byte) (e : BatchExit) (s : BatchState Ω) : Prop :=
  e ≠ .endless ∧ Handed source s.returned s.history ∧ (s.info.parseFailed = true → s.history = [])

theorem nextStatement_eager :
    Meets (StandsAt source ls c [] eager) (nextStatement E true) (Advanced source ls c [] eager)
      (EagerExit source) := by
  unfold nextStatement
  refine Meets.caught (next_advances E) fun e ↦ Meets.given fun he ↦ ?_
  refine Meets.bind (Q := fun _ _ ↦ False) ?_ fun _ ↦ fun _ hs ↦ hs.elim
  have hempty : ∀ s : BatchState Ω, StandsAt source ls c [] eager s → Handed source s.returned s.history := by
    intro s hs
    rw [hs.returned, hs.history]
    exact ⟨c, [], hs.pieces, .nil, .inl rfl⟩
  unfold afterParseError
  split
  · exact absurd rfl he
  split
  · refine Meets.bind (update_meets (Q := fun s ↦ Handed source s.returned s.history ∧ s.history = [])
      fun s hs ↦ ⟨hempty s hs, hs.history⟩) fun _ ↦ ?_
    rw [if_pos rfl]
    exact Meets.exit fun s hs ↦ ⟨by simp [BatchExit.standard], hs.1, fun _ ↦ hs.2⟩
  · exact Meets.exit fun s hs ↦ ⟨by simp, hempty s hs, fun _ ↦ hs.history⟩

/-- A turn of the eager loop only collects the statement that it has parsed. -/
theorem eagerTurn_stands :
    Meets (StandsAt source ls c [] ls) (eagerTurn E)
      (Meets.Turned (fun s ↦ (∃ ls c, StandsAt source ls c [] ls s) ∧
        source.length - s.parser.consumed < source.length - c)
        fun _ s ↦ ∃ ls c, StandsAt source ls c [] ls s) (EagerExit source) := by
  refine Meets.bind (nextStatement_eager E) fun next ↦ ?_
  cases next with
  | none => exact Meets.pure fun s hs ↦ ⟨ls, c, hs⟩
  | some l =>
    refine Meets.bind (update_meets (Q := fun s ↦ c < l.start + l.statement.query.length ∧
      StandsAt source (ls ++ [l]) (l.start + l.statement.query.length) [] (ls ++ [l]) s) fun s hs ↦ ?_) fun _ ↦ ?_
    · obtain ⟨hlt, hs⟩ := hs
      exact ⟨hlt, hs.normalized, hs.consumed, hs.returned, hs.history, hs.collected ▸ rfl, hs.parsing, hs.pieces⟩
    · refine Meets.pure fun s ⟨hlt, hs⟩ ↦ ?_
      have hle := hs.pieces.le_length
      refine ⟨⟨_, _, hs⟩, ?_⟩
      rw [hs.consumed]
      omega

/-- A loop over the source, whose turns consume some of it. -/
theorem batchLoop_ends (source : List Byte) {P : BatchState Ω → Prop} {Q : BatchState Ω → Prop} {R : BatchExit → BatchState Ω → Prop}
    {turn : Batch Ω (Option PUnit)} (hP : ∀ s, P s → s.parser.normalized = source)
    (hturn : ∀ k, Meets (fun s ↦ P s ∧ source.length - s.parser.consumed = k) turn
      (Meets.Turned (fun s ↦ P s ∧ source.length - s.parser.consumed < k) fun _ ↦ Q) R) : Meets P (batchLoop turn) (fun _ ↦ Q) R := by
  unfold batchLoop
  refine Meets.bind (Meets.step (Q := fun n s ↦ n = source.length + 1 ∧ P s) fun s hs ↦
    ⟨congrArg (fun l : List Byte ↦ l.length + 1) (hP s hs), hs⟩) fun n ↦ Meets.given fun hn ↦ ?_
  subst hn
  refine Meets.bind ((Meets.turns_measured hturn).pre fun s hs ↦ ⟨hs, ?_⟩) fun r ↦ ?_
  · omega
  · cases r with
    | none =>
      rintro s ⟨a, ha, _⟩
      cases ha
    | some a => exact Meets.pure fun s ⟨_, _, hs⟩ ↦ hs

def BatchExits (source : List Byte) (force : Bool) (e : BatchExit) (s : BatchState Ω) : Prop :=
  e ≠ .endless ∧ Handed source s.returned s.history ∧
    (force = true → s.info.parseFailed = true → s.history = [])

theorem batchLoops_lazy :
    Meets (StandsAt source [] 0 [] []) (batchLoops E false) (fun _ s ↦ Delivered source s.returned s.history)
      (BatchExits source false) := by
  unfold batchLoops
  rw [if_neg Bool.false_ne_true]
  refine (batchLoop_ends source (R := LazyExit source)
    (P := fun s ↦ ∃ ls c h, StandsAt source ls c h [] s ∧ List.Forall₂ Located.Runs ls h)
    ?_ fun k ↦ ?_).mono (fun s hs ↦ ⟨[], 0, [], hs, .nil⟩) (fun _ _ hs ↦ hs)
    fun e s hs ↦ ⟨hs.1, hs.2, fun hforce ↦ absurd hforce Bool.false_ne_true⟩
  · rintro s ⟨ls, c, h, hs, _⟩
    exact hs.normalized
  · rintro s ⟨⟨ls, c, h, hs, hruns⟩, rfl⟩
    rw [hs.consumed]
    exact lazyTurn_stands E hruns s hs

theorem batchLoops_eager :
    Meets (StandsAt source [] 0 [] []) (batchLoops E true)
      (fun _ s ↦ Delivered source s.returned s.history ∧ s.info.parseFailed = false) (BatchExits source true) := by
  unfold batchLoops
  rw [if_pos rfl]
  refine Meets.bind (Q := fun _ s ↦ ∃ ls c, StandsAt source ls c [] ls s)
    ((batchLoop_ends source (R := EagerExit source)
      (P := fun s ↦ ∃ ls c, StandsAt source ls c [] ls s) ?_ fun k ↦ ?_).mono
      (fun s hs ↦ ⟨[], 0, hs⟩) (fun _ _ hs ↦ hs) fun e s hs ↦ ⟨hs.1, hs.2.1, fun _ ↦ hs.2.2⟩) fun _ ↦ ?_
  · rintro s ⟨ls, c, hs⟩
    exact hs.normalized
  · rintro s ⟨⟨ls, c, hs⟩, rfl⟩
    rw [hs.consumed]
    exact eagerTurn_stands E s hs
  refine Meets.bind (Meets.step (Q := fun eager s ↦ ∃ c, StandsAt source eager c [] eager s) ?_) fun eager ↦ ?_
  · rintro s ⟨ls, c, hs⟩
    have hcollected : s.eager = ls := hs.collected
    exact ⟨c, hcollected ▸ hs⟩
  refine Meets.exists_pre fun c ↦ ?_
  refine (Meets.each (I := fun done s ↦ ∃ h, List.Forall₂ Located.Runs done h ∧ StandsAt source eager c h eager s)
    (R := BatchExits source true) fun done l rest heager ↦ ?_).mono
    (fun s hs ↦ ⟨[], .nil, hs⟩) ?_ fun _ _ hs ↦ hs
  · refine Meets.exists_pre fun h ↦ Meets.given fun hruns ↦ ?_
    have hcall : ∀ a, List.Forall₂ Located.Runs (done ++ [l]) (h ++ [l.call a]) := fun a ↦
      List.rel_append hruns (.cons rfl .nil)
    refine (executeBatchStatement_stands E true l).mono (fun _ hs ↦ hs) (fun _ s ⟨a, hs⟩ ↦ ⟨_, hcall a, hs⟩) ?_
    rintro e s ⟨a, he, hs⟩
    refine ⟨he, ?_, fun _ hfailed ↦ absurd hfailed (hs.parsing ▸ Bool.false_ne_true)⟩
    have hsplit : eager = done ++ [l] ++ rest := by rw [heager, List.append_assoc, List.singleton_append]
    rw [hs.returned, hs.history, hsplit]
    exact handed_take (hsplit ▸ hs.pieces) (hcall a)
  · rintro _ s ⟨h, hruns, hs⟩
    refine ⟨?_, hs.parsing⟩
    rw [hs.returned, hs.history]
    exact ⟨c, h, hs.pieces, hruns, .inl rfl⟩

def Unopened (query : List Byte) (force : Bool) (s : BatchState Ω) : Prop :=
  s.returned = [] ∧ (s.history = [] ∨ force = false ∧ ∃ a, s.history = [unparsedCall query a])

theorem openBatch_meets (query : List Byte) (force : Bool) (w : Ω) :
    Meets (fun s ↦ s = .initial w) (openBatch E query force)
      (fun opened s ↦ if opened then ∃ source, E.normalize query = .ok source ∧ StandsAt source [] 0 [] [] s
        else Unopened query force s)
      (fun e s ↦ e ≠ .endless ∧ Unopened query force s) := by
  have hblank : Meets (fun s ↦ s = .initial w) (BatchParser.open (Ω := Ω) E query)
      (fun _ s ↦ ∃ source, E.normalize query = .ok source ∧ StandsAt source [] 0 [] [] s)
      (fun e s ↦ e ≠ .endless ∧ s.returned = [] ∧ s.history = []) := by
    unfold BatchParser.open
    cases hnormalize : E.normalize query with
    | error e => exact Meets.exit (by rintro s rfl; exact ⟨by simp, rfl, rfl⟩)
    | ok source =>
      refine Meets.bind (Meets.pure (Q := fun a s ↦ a = source ∧ s = .initial w) fun s hs ↦ ⟨rfl, hs⟩)
        fun a ↦ Meets.given fun ha ↦ ?_
      subst ha
      refine Meets.bind (Q := fun _ s ↦ s = .initial w) ?_ fun tokens ↦ ?_
      · cases E.tokenize a with
        | error e => exact Meets.exit (by rintro s rfl; exact ⟨by simp, rfl, rfl⟩)
        | ok tokens => exact Meets.pure fun s hs ↦ hs
      refine Meets.bind (Q := fun _ s ↦ ∃ w, s = .initial w) ?_ fun _ ↦ update_meets ?_
      · rintro s rfl
        unfold engineCall
        cases (E.openIterator a (BatchState.initial w).engine).1 with
        | error e => exact ⟨by simp, rfl, rfl⟩
        | ok _ => exact ⟨_, rfl⟩
      · rintro s ⟨w, rfl⟩
        exact ⟨a, rfl, rfl, rfl, rfl, rfl, rfl, rfl, .nil⟩
  unfold openBatch
  refine Meets.caught (Meets.bind hblank fun _ ↦ Meets.pure fun s hs ↦ hs) fun e ↦ Meets.given fun he ↦ ?_
  refine Meets.bind (Q := fun _ ↦ Unopened query force) ?_ fun _ ↦ Meets.pure fun s hs ↦ hs
  unfold afterParseError
  split
  · exact absurd rfl he
  split
  · refine Meets.bind (update_meets (Q := fun s ↦ s.returned = [] ∧ s.history = []) fun s hs ↦ hs) fun _ ↦ ?_
    cases force with
    | true => exact Meets.exit fun s hs ↦ ⟨by simp [BatchExit.standard], hs.1, .inl hs.2⟩
    | false =>
      rw [if_neg Bool.false_ne_true]
      refine Meets.bind (Meets.step (Q := fun remaining s ↦ remaining = query ∧ s.returned = [] ∧ s.history = [])
        fun s hs ↦ ⟨rfl, hs⟩) fun remaining ↦ Meets.given fun hremaining ↦ ?_
      subst hremaining
      exact (dispatchUnparsed_forwards E _).mono (fun _ hs ↦ hs) (fun _ s hs ↦ ⟨hs.1, .inr ⟨rfl, hs.2⟩⟩)
        fun e s hs ↦ ⟨hs.1, hs.2.1, .inr ⟨rfl, hs.2.2⟩⟩
  · exact Meets.exit fun s hs ↦ ⟨by simp, hs.1, .inl hs.2⟩

structure Batched (query : List Byte) (force ended : Bool) (s : BatchState Ω) : Prop where
  handed : Unopened query force s ∨ ∃ source, E.normalize query = .ok source ∧
    Handed source s.returned s.history ∧ (ended = true → Delivered source s.returned s.history)
  eager : force = true → s.info.parseFailed = true → s.history = []

theorem execBatch_meets (query : List Byte) (force : Bool) (w : Ω) :
    Meets (fun s ↦ s = .initial w) (execBatch E true query force) (fun _ ↦ Batched E query force true)
      (fun e s ↦ e ≠ .endless ∧ Batched E query force false s) := by
  have hunopened : ∀ (ended : Bool) (s : BatchState Ω), Unopened query force s → Batched E query force ended s := by
    refine fun ended s hs ↦ ⟨.inl hs, fun hforce _ ↦ ?_⟩
    rcases hs.2 with hs | ⟨hlazy, _⟩
    · exact hs
    · exact absurd (hlazy.symm.trans hforce) Bool.false_ne_true
  unfold execBatch
  split
  · refine Meets.exit ?_
    rintro s rfl
    exact ⟨by simp [BatchExit.standard], hunopened _ _ ⟨rfl, .inl rfl⟩⟩
  rw [if_pos rfl]
  unfold execBatchLazily
  refine Meets.bind ((openBatch_meets E query force w).mono (fun _ hs ↦ hs) (fun _ _ hs ↦ hs)
    fun e s hs ↦ ⟨hs.1, hunopened _ _ hs.2⟩) fun opened ↦ ?_
  cases opened with
  | false => exact Meets.pure fun s hs ↦ hunopened _ _ hs
  | true =>
    simp only [if_true]
    rintro s ⟨source, hsource, hs⟩
    have hexits : ∀ e (t : BatchState Ω), BatchExits source force e t → e ≠ .endless ∧ Batched E query force false t :=
      fun e t ht ↦ ⟨ht.1, .inr ⟨source, hsource, ht.2.1, fun h ↦ absurd h Bool.false_ne_true⟩, ht.2.2⟩
    cases force with
    | false =>
      exact (batchLoops_lazy E).mono (fun _ hs ↦ hs) (fun _ t ht ↦ ⟨.inr ⟨source, hsource, ht.handed, fun _ ↦ ht⟩,
        fun hforce ↦ absurd hforce Bool.false_ne_true⟩) hexits s hs
    | true =>
      exact (batchLoops_eager E).mono (fun _ hs ↦ hs) (fun _ t ht ↦ ⟨.inr ⟨source, hsource, ht.1.handed, fun _ ↦ ht.1⟩,
        fun _ hfailed ↦ absurd hfailed (ht.2 ▸ Bool.false_ne_true)⟩) hexits s hs

/-- Over a whole batch, with any answers of the engine: the statements that were
executed are those that the parser returned, each once, in order, and each is the
text at its place in the source, which begins where the one before has ended or
later. What is forwarded unparsed after a parse failure is what comes after the last
of them, so no part of the source is executed twice; when the whole batch is to be
parsed first, a parse failure comes before anything is executed. -/
theorem runBatch_handed (query : List Byte) (force : Bool) (w : Ω) :
    (runBatch E true query force w).1 ≠ .error .endless ∧
    (Unopened query force (runBatch E true query force w).2 ∨ ∃ source, E.normalize query = .ok source ∧
      Handed source (runBatch E true query force w).2.returned (runBatch E true query force w).2.history ∧
      ((runBatch E true query force w).2.history.map Call.text).flatten.Sublist source ∧
      ((runBatch E true query force w).1 = .ok ⟨⟩ →
        Delivered source (runBatch E true query force w).2.returned (runBatch E true query force w).2.history)) ∧
    (force = true → (runBatch E true query force w).2.info.parseFailed = true →
      (runBatch E true query force w).2.history = []) := by
  have h := execBatch_meets E query force w (.initial w) rfl
  have hopened : ∀ (ended : Bool) (s : BatchState Ω), Batched E query force ended s →
      Unopened query force s ∨ ∃ source, E.normalize query = .ok source ∧ Handed source s.returned s.history ∧
        (s.history.map Call.text).flatten.Sublist source ∧
        (ended = true → Delivered source s.returned s.history) := by
    intro ended s hs
    refine hs.handed.imp_right ?_
    rintro ⟨source, hsource, hhanded, hdelivered⟩
    exact ⟨source, hsource, hhanded, hhanded.sublist, hdelivered⟩
  unfold runBatch
  cases hr : execBatch E true query force (.initial w) with
  | mk result s =>
    rw [hr] at h
    cases result with
    | ok _ =>
      refine ⟨by simp, (hopened true s h).imp_right ?_, h.eager⟩
      rintro ⟨source, hsource, hhanded, hsublist, hdelivered⟩
      exact ⟨source, hsource, hhanded, hsublist, fun _ ↦ hdelivered rfl⟩
    | error e =>
      refine ⟨fun he ↦ h.1 (Except.error.inj he), (hopened false s h.2).imp_right ?_, h.2.eager⟩
      rintro ⟨source, hsource, hhanded, hsublist, _⟩
      exact ⟨source, hsource, hhanded, hsublist, fun hok ↦ by cases hok⟩

end Runs

end PdoDuckdb.Bridge
