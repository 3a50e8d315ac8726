import PdoDuckdb.Driver.Instances
import PdoDuckdb.Library.Custody
import PdoDuckdb.Library.Exits

namespace PdoDuckdb.Entries

open Library
open Driver (Address)
open Library.Exits (Meets)

section Locks

/-- `pdo_duckdb_locked_instance` and `pdo_duckdb_lock_depth`. -/
structure Lock where
  locked : Option Address
  depth : ℕ
deriving DecidableEq, Repr

/-- `pdo_duckdb_instance_lock`, for the instance of the handle. -/
def Lock.acquire (l : Lock) : Option Address → Lock
  | none => l
  | some i => if l.locked = some i then { l with depth := l.depth + 1 } else ⟨some i, 1⟩

/-- `pdo_duckdb_instance_unlock`. -/
def Lock.release (l : Lock) : Option Address → Lock
  | none => l
  | some _ => ⟨if l.depth - 1 = 0 then none else l.locked, l.depth - 1⟩

/-- What `pdo_duckdb_instance_lock` asserts: no other instance is locked. -/
def Lock.Ready (l : Lock) (instance? : Option Address) : Prop :=
  ∀ i ∈ instance?, l = ⟨none, 0⟩ ∨ (l.locked = some i ∧ 0 < l.depth)

theorem Lock.Ready.release_acquire {l : Lock} {instance? : Option Address} (h : l.Ready instance?) :
    (l.acquire instance?).release instance? = l := by
  cases instance? with
  | none => rfl
  | some i =>
    rcases h i rfl with rfl | ⟨hlocked, hdepth⟩
    · simp [acquire, release]
    · obtain ⟨n, hn⟩ := Nat.exists_eq_succ_of_ne_zero (Nat.ne_of_gt hdepth)
      cases l
      simp_all [acquire, release]

end Locks

section Worlds

inductive Native
  | connection
  | prepared
  | extracted
  | pending
  | result
  | chunk
  | bridgeResult
  | bridgeError
deriving DecidableEq, Repr

abbrev Handle := ℕ × Native

/-- The fields of a `pdo_duckdb_stmt` that own something native. -/
inductive Slot
  | prepared
  | result
  | bridgeResult
  | chunk
deriving DecidableEq, Repr

def Slot.all : List Slot := [.prepared, .result, .bridgeResult, .chunk]

theorem Slot.mem_all (j : Slot) : j ∈ all := by cases j <;> decide

theorem Slot.nodup_all : all.Nodup := by decide

/-- The statement that the entry point is called on. -/
structure Owner where
  held : Slot → Option Handle
  hasResult : Bool

/-- What `ecalloc` makes. -/
def Owner.fresh : Owner := ⟨fun _ ↦ none, false⟩

def Owner.put (o : Owner) (j : Slot) (h : Option Handle) : Owner :=
  { o with held := Function.update o.held j h }

def Owner.setHasResult (o : Owner) (b : Bool) : Owner := { o with hasResult := b }

def Owner.stored (o : Owner) : List Handle := Slot.all.flatMap fun j ↦ (o.held j).toList

/-- `has_result` tells whether there is a result, and a result has one kind. -/
structure Owner.Sound (o : Owner) : Prop where
  unset : o.hasResult = false → o.held .result = none ∧ o.held .bridgeResult = none
  single : o.held .bridgeResult ≠ none → o.held .result = none

/-- Where a PHP allocation gives up: while the rows of a query of the sandbox are
walked, in a report from within a batch that its caller has extracted, or elsewhere. -/
inductive Bailout
  | elsewhere
  | rowWalk
  | batch
deriving DecidableEq, Repr

/-- The calls come out by their number, in any way. -/
structure World where
  lock : Lock
  natives : Custody Native
  owner : Owner
  outcomes : ℕ → ℕ
  calls : ℕ

abbrev Run := Exits Bailout World

def World.acquire (i : Option Address) (w : World) : World := { w with lock := w.lock.acquire i }

def World.release (i : Option Address) (w : World) : World := { w with lock := w.lock.release i }

/-- A destructor of the engine or the bridge, which takes no notice of null. -/
def World.destroy (h : Option Handle) (w : World) : World :=
  match h with
  | none => w
  | some h => { w with natives := w.natives.release h }

def World.clear (j : Slot) (w : World) : World :=
  { w.destroy (w.owner.held j) with owner := w.owner.put j none }

def World.put (j : Slot) (h : Option Handle) (w : World) : World := { w with owner := w.owner.put j h }

def World.setHasResult (b : Bool) (w : World) : World := { w with owner := w.owner.setHasResult b }

def act (f : World → World) : Run PUnit := Exits.step fun w ↦ (⟨⟩, f w)

def choose : Run ℕ := Exits.step fun w ↦ (w.outcomes w.calls, { w with calls := w.calls + 1 })

def ask : Run Bool := Exits.step fun w ↦
  (w.outcomes w.calls != 0, { w with calls := w.calls + 1 })

def owner : Run Owner := Exits.step fun w ↦ (w.owner, w)

def allocate (site : Bailout) : Run PUnit := do
  match ← ask with
  | true => pure ⟨⟩
  | false => Exits.exit site

def create (k : Native) : Run Handle := Exits.step fun w ↦
  ((w.natives.create k).1, { w with natives := (w.natives.create k).2 })

def mayCreate (k : Native) : Run (Option Handle) := do
  match ← ask with
  | true => do
    let h ← create k
    pure (some h)
  | false => pure none

/-- A call that makes an object where it succeeds, and may make one for the
error where it fails. -/
def produce (k : Native) : Run (Option Handle × Bool) := do
  match ← ask with
  | true => do
    let h ← create k
    pure (some h, true)
  | false => do
    let h ← mayCreate k
    pure (h, false)

/-- A call to the bridge: none where it succeeds, else the `pdd_bridge_error`,
which may be without data. -/
def bridgeCall : Run (Option (Option Handle)) := do
  match ← ask with
  | true => pure none
  | false => do
    let error ← mayCreate .bridgeError
    pure (some error)

def bridgeCalls : Run (Option (Option Handle)) := do
  match ← bridgeCall with
  | some error => pure (some error)
  | none => bridgeCall

/-- A call whose error is only looked at. -/
def bridgeOk : Run Bool := do
  let error ← bridgeCall
  act (World.destroy error.join)
  pure error.isNone

end Worlds

section Specs

variable {base l : List Handle} {L : Lock} {o : Owner} {h : Handle} {k : Native} {j : Slot}
  {i : Option Address} {site : Bailout} {R : Bailout → World → Prop}

/-- The lock, the statement, and what is there: the locals, what the statement
has, and what others have. -/
structure At (base : List Handle) (L : Lock) (o : Owner) (l : List Handle) (w : World) : Prop where
  lock : w.lock = L
  owner : w.owner = o
  owes : w.natives.Owes (l ++ (o.stored ++ base))

theorem act_meets {P Q : World → Prop} {f : World → World} (hf : ∀ w, P w → Q (f w)) :
    Meets P (act f) (fun _ ↦ Q) R := Meets.step hf

theorem choose_meets : Meets (At base L o l) choose (fun _ ↦ At base L o l) R :=
  Meets.step fun _ hw ↦ ⟨hw.lock, hw.owner, hw.owes⟩

theorem ask_meets : Meets (At base L o l) ask (fun _ ↦ At base L o l) R :=
  Meets.step fun _ hw ↦ ⟨hw.lock, hw.owner, hw.owes⟩

theorem owner_meets : Meets (At base L o l) owner (fun o' w ↦ o' = o ∧ At base L o l w) R :=
  Meets.step fun _ hw ↦ ⟨hw.owner, hw⟩

theorem allocate_meets (hR : ∀ w, At base L o l w → R site w) :
    Meets (At base L o l) (allocate site) (fun _ ↦ At base L o l) R := by
  refine Meets.bind ask_meets fun granted ↦ ?_
  match granted with
  | true => exact Meets.pure fun w hw ↦ hw
  | false => exact Meets.exit hR

theorem create_meets : Meets (At base L o l) (create k) (fun h ↦ At base L o (h :: l)) R :=
  Meets.step fun _ hw ↦ ⟨hw.lock, hw.owner, hw.owes.create k⟩

theorem mayCreate_meets :
    Meets (At base L o l) (mayCreate k) (fun h ↦ At base L o (h.toList ++ l)) R := by
  refine Meets.bind ask_meets fun made ↦ ?_
  match made with
  | true => exact Meets.bind create_meets fun h ↦ Meets.pure fun w hw ↦ hw
  | false => exact Meets.pure fun w hw ↦ hw

theorem produce_meets :
    Meets (At base L o l) (produce k) (fun r ↦ At base L o (r.1.toList ++ l)) R := by
  refine Meets.bind ask_meets fun ok ↦ ?_
  match ok with
  | true => exact Meets.bind create_meets fun h ↦ Meets.pure fun w hw ↦ hw
  | false => exact Meets.bind mayCreate_meets fun h ↦ Meets.pure fun w hw ↦ hw

theorem bridgeCall_meets :
    Meets (At base L o l) bridgeCall (fun r ↦ At base L o (r.join.toList ++ l)) R := by
  refine Meets.bind ask_meets fun ok ↦ ?_
  match ok with
  | true => exact Meets.pure fun w hw ↦ hw
  | false => exact Meets.bind mayCreate_meets fun h ↦ Meets.pure fun w hw ↦ hw

theorem bridgeCalls_meets :
    Meets (At base L o l) bridgeCalls (fun r ↦ At base L o (r.join.toList ++ l)) R := by
  refine Meets.bind bridgeCall_meets fun r ↦ ?_
  match r with
  | some error => exact Meets.pure fun _ hw ↦ hw
  | none => exact bridgeCall_meets

theorem At.acquire {w : World} (hw : At base L o l w) : At base (L.acquire i) o l (w.acquire i) :=
  ⟨congrArg (Lock.acquire · i) hw.lock, hw.owner, hw.owes⟩

theorem At.release {w : World} (hL : L.Ready i) (hw : At base (L.acquire i) o l w) :
    At base L o l (w.release i) :=
  ⟨(congrArg (Lock.release · i) hw.lock).trans hL.release_acquire, hw.owner, hw.owes⟩

theorem At.destroy {w : World} {h : Option Handle} (hw : At base L o (h.toList ++ l) w) :
    At base L o l (w.destroy h) := by
  match h, hw with
  | none, hw => exact hw
  | some h, hw => exact ⟨hw.lock, hw.owner, hw.owes.release⟩

theorem Owner.stored_put (o : Owner) (j : Slot) (h : Option Handle) : (o.put j h).stored =
    Slot.all.flatMap (Function.update (Option.toList ∘ o.held) j h.toList) :=
  congrArg (Slot.all.flatMap ·) (Function.comp_update Option.toList o.held j h)

theorem Owner.stored_perm (o : Owner) (j : Slot) :
    o.stored.Perm ((o.held j).toList ++ (o.put j none).stored) := by
  rw [o.stored_put]
  exact Custody.flatMap_perm Slot.nodup_all j.mem_all

/-- A field that is filled has what was a local. -/
theorem At.put {w : World} {h : Option Handle} (hj : o.held j = none)
    (hw : At base L o (h.toList ++ l) w) : At base L (o.put j h) l (w.put j h) := by
  refine ⟨hw.lock, congrArg (Owner.put · j h) hw.owner, hw.owes.perm ?_⟩
  have hempty : (Option.toList ∘ o.held) j = [] := by
    rw [Function.comp_apply, hj]
    rfl
  have hfill : (o.put j h).stored.Perm (h.toList ++ o.stored) := by
    rw [o.stored_put]
    exact Custody.flatMap_fill_perm Slot.nodup_all j.mem_all hempty h.toList
  rw [List.append_assoc]
  refine (List.perm_append_comm_assoc _ _ _).trans (List.Perm.append_left l ?_)
  rw [← List.append_assoc]
  exact hfill.symm.append_right base

theorem At.clear {w : World} (hw : At base L o l w) : At base L (o.put j none) l (w.clear j) := by
  have hperm : (l ++ (o.stored ++ base)).Perm
      ((o.held j).toList ++ (l ++ ((o.put j none).stored ++ base))) := by
    refine (((o.stored_perm j).append_right base).append_left l).trans ?_
    rw [List.append_assoc]
    exact List.perm_append_comm_assoc _ _ _
  have howes := hw.owes.perm hperm
  unfold World.clear
  rw [hw.owner]
  match ho : o.held j, howes with
  | none, howes => exact ⟨hw.lock, rfl, howes⟩
  | some h, howes => exact ⟨hw.lock, rfl, howes.release⟩

theorem At.setHasResult {w : World} {b : Bool} (hw : At base L o l w) :
    At base L (o.setHasResult b) l (w.setHasResult b) :=
  ⟨hw.lock, congrArg (Owner.setHasResult · b) hw.owner, hw.owes⟩

end Specs

end PdoDuckdb.Entries
