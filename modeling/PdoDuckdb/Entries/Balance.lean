import PdoDuckdb.Entries.Statements

namespace PdoDuckdb.Entries

open Library
open Driver (Address)
open Library.Exits (Meets)

inductive Entry
  | exec (multiple transaction : Bool) (verified : ℕ)
  | execute
  | fetch (n : ℕ)

def Entry.run (haveV2 : Bool) (i : Option Address) : Entry → Run PUnit
  | .exec multiple transaction verified => do
    let _ ← handleDoer haveV2 i multiple transaction verified
  | .execute => do
    let _ ← stmtExecute haveV2 i
  | .fetch n => do
    let _ ← stmtFetch haveV2 i n

def session (haveV2 : Bool) (i : Option Address) (entries : List Entry) : Run PUnit := do
  let _ ← handlePreparer haveV2 i
  Exits.each (Entry.run haveV2 i) entries

section Balance

variable {base : List Handle} {L : Lock} {o : Owner} {i : Option Address} {haveV2 : Bool}

theorem Entry.run_meets (hL : L.Ready i) (ho : o.Sound) (entry : Entry) :
    Meets (At base L o []) (entry.run haveV2 i) (fun _ ↦ Settled base L) (Bails base L) := by
  cases entry with
  | exec multiple transaction verified =>
    exact Meets.bind (handleDoer_meets hL ho) fun _ ↦ Meets.pure fun _ hw ↦ hw
  | execute => exact Meets.bind (stmtExecute_meets hL ho) fun _ ↦ Meets.pure fun _ hw ↦ hw
  | fetch n => exact Meets.bind (stmtFetch_meets hL ho) fun _ ↦ Meets.pure fun _ hw ↦ hw

theorem session_meets (hL : L.Ready i) (entries : List Entry) :
    Meets (At base L .fresh []) (session haveV2 i entries) (fun _ ↦ Settled base L) (Bails base L) := by
  have hfresh : Owner.fresh.Sound := ⟨fun _ ↦ ⟨rfl, rfl⟩, fun _ ↦ rfl⟩
  refine Meets.bind (handlePreparer_meets hL hfresh rfl) fun _ ↦ ?_
  exact Meets.each (I := fun _ ↦ Settled base L) fun _ entry _ _ ↦
    Meets.chosen fun _ ho ↦ entry.run_meets hL ho

/-- How the entry points leave the lock and what they make. -/
theorem entries_balanced (hL : L.Ready i) :
    (∀ o l, Meets (At base L o l) (nativeEnter haveV2 i)
      (fun allowed ↦ At base (if allowed then L.acquire i else L) o l)
      (fun e w ↦ w.lock = L ∧ (e = .elsewhere → At base L o l w))) ∧
    (∀ o, o.Sound → o.held .prepared = none →
      Meets (At base L o []) (handlePreparer haveV2 i) (fun _ ↦ Settled base L) (Bails base L)) ∧
    (∀ o (entry : Entry), o.Sound →
      Meets (At base L o []) (entry.run haveV2 i) (fun _ ↦ Settled base L) (Bails base L)) ∧
    ∀ entries, Meets (At base L .fresh []) (session haveV2 i entries) (fun _ ↦ Settled base L)
      (Bails base L) := by
  refine ⟨fun o l ↦ ?_, fun o ho hempty ↦ handlePreparer_meets hL ho hempty,
    fun o entry ho ↦ entry.run_meets hL ho, session_meets hL⟩
  refine (nativeEnter_meets hL).mono (fun _ hw ↦ hw) (fun _ _ hw ↦ hw) fun e w hw ↦ ⟨hw.2, fun he ↦ ?_⟩
  rw [hw.1] at he
  cases he

/-- Nothing is locked and nothing is there; the calls come out as listed. -/
def quietWorld (outcomes : List ℕ) : World :=
  ⟨⟨none, 0⟩, .empty, .fresh, fun n ↦ outcomes.getD n 1, 0⟩

theorem entries_balanced_unlocked :
    (∀ o l, Meets (At [] ⟨none, 0⟩ o l) (nativeEnter true (some 0))
      (fun allowed ↦ At [] (if allowed then Lock.acquire ⟨none, 0⟩ (some 0) else ⟨none, 0⟩) o l)
      (fun e w ↦ w.lock = ⟨none, 0⟩ ∧ (e = .elsewhere → At [] ⟨none, 0⟩ o l w))) ∧
    (∀ o, o.Sound → o.held .prepared = none →
      Meets (At [] ⟨none, 0⟩ o []) (handlePreparer true (some 0)) (fun _ ↦ Settled [] ⟨none, 0⟩)
        (Bails [] ⟨none, 0⟩)) ∧
    (∀ o (entry : Entry), o.Sound →
      Meets (At [] ⟨none, 0⟩ o []) (entry.run true (some 0)) (fun _ ↦ Settled [] ⟨none, 0⟩)
        (Bails [] ⟨none, 0⟩)) ∧
    ∀ entries, Meets (At [] ⟨none, 0⟩ .fresh []) (session true (some 0) entries)
      (fun _ ↦ Settled [] ⟨none, 0⟩) (Bails [] ⟨none, 0⟩) :=
  entries_balanced fun _ _ ↦ .inl rfl

/-- The lock is kept where the entry is allowed; a report from within a batch that
bails out leaves the batch, and a walk over rows that does leaves the result. -/
theorem not_balanced :
    (nativeEnter false (some 0) (quietWorld [0, 1])).2.lock = ⟨some 0, 1⟩ ∧
    (handleDoer false (some 0) true true 2
      (quietWorld [0, 1, 0, 1, 1, 2, 0, 1, 0, 1, 1, 0])).2.natives.live = [(0, .extracted)] ∧
    (nativeEnter false (some 0)
      (quietWorld [0, 0, 1, 1, 1, 0, 1, 1, 1, 1, 1, 0, 0, 0])).2.natives.live =
        [(2, .chunk), (1, .result)] := by
  decide +kernel

end Balance

end PdoDuckdb.Entries
