import PdoDuckdb.Appenders.Checks
import PdoDuckdb.Appenders.Lifecycle

namespace PdoDuckdb.Appenders.Rows

open Library Library.Exits Library.Binary64 Cells

/-- A native appender, by the rows ended in it and the cells after them, and the `closed` flag
of the driver. -/
structure Sink where
  closed : Bool
  rows : List (List Native)
  current : List Native

/-- What the outside answers during one `appendRow`: the sandbox twice, a probe and a native
append for each column, and the end of the row. -/
structure Outside where
  enforced : Except String Unit
  probes : ℕ → Probing
  entered : Except String Unit
  appends : ℕ → Bool
  ends : Bool
  detail : String

structure Slot where
  index : ℕ
  column : Column
  value : Zval

def slots (columns : List Column) (args : List Zval) : List Slot :=
  (columns.zip args).zipIdx.map fun x ↦ ⟨x.2, x.1.1, x.1.2⟩

/-- `built` of `pdo_duckdb_appender_append_row`, with the entries that are set. -/
structure Built where
  entries : Option (List (ℕ × Handle))

def Built.null : Built := ⟨none⟩

def Built.held (b : Built) : List Handle := (b.entries.getD []).map Prod.snd

def Built.find (b : Built) (i : ℕ) : Option Handle := (b.entries.getD []).lookup i

/-- `pdo_duckdb_appender_row_values_free`. -/
def Built.free (b : Built) (s : Sink × World) : Sink × World := (s.1, s.2.destroyAll b.held)

/-- A part of `pdo_duckdb_appender_append_row`. -/
abbrev RowBuilding := Exits Stop (Built × Sink × World)

def inWorld {α : Type} (m : Exits Stop World α) : RowBuilding α := Exits.within (Exits.within m)

def modifyBuilt (f : Built → Built) : RowBuilding PUnit := Exits.step fun s ↦ (⟨⟩, f s.1, s.2)

def modifySink (f : Sink → Sink) : RowBuilding PUnit :=
  Exits.step fun s ↦ (⟨⟩, s.1, f s.2.1, s.2.2)

/-- The array is allocated for the first value that is built. -/
def openBuilt : RowBuilding PUnit := fun s ↦
  (if s.1.entries.isSome then pure ⟨⟩
  else do
    inWorld allocate
    modifyBuilt fun _ ↦ ⟨some []⟩ : RowBuilding PUnit) s

def storeBuilt (i : ℕ) (h : Handle) : RowBuilding PUnit :=
  modifyBuilt fun b ↦ ⟨b.entries.map (· ++ [(i, h)])⟩

/-- A turn of the first pass. -/
def checkSlot (p : Platform) (H : Heap) (o : Outside) (x : Slot) : RowBuilding PUnit :=
  match kindOf (H.deref x.value), H.deref x.value with
  | some kind, z =>
    inWorld (runCheck p (x.index + 1) x.column z (o.probes x.index) (x.column.planChecks p kind))
  | none, .null => pure ⟨⟩
  | none, .array table => do
    openBuilt
    let h ← inWorld (buildValue p.engine H (x.index + 1) 0 (.array table) x.column.type.descFill)
    storeBuilt x.index h
  | none, .object className table => do
    openBuilt
    let h ← inWorld
      (buildValue p.engine H (x.index + 1) 0 (.object className table) x.column.type.descFill)
    storeBuilt x.index h
  | none, z =>
    let argpos := x.index + 1
    inWorld (refuse .typeError (Cells.appendRow s!"argument #{argpos} is of unsupported type {z.valueName}"))

/-- The second `pdo_duckdb_appender_enter`. -/
def enter (o : Outside) : RowBuilding PUnit :=
  match o.entered with
  | .ok () => pure ⟨⟩
  | .error message => inWorld (refuse .pdoException ("Pdo\\Duckdb\\Appender: " ++ message))

def poison (what : String) (o : Outside) : RowBuilding PUnit := do
  modifySink fun k ↦ { k with closed := true }
  inWorld (refuse .pdoException (what ++ ": " ++ o.detail))

def appendCell (o : Outside) (i : ℕ) (v : Native) : RowBuilding PUnit :=
  if o.appends i then modifySink fun k ↦ { k with current := k.current ++ [v] }
  else poison "Failed to append value" o

/-- A turn of the second pass. A value that is neither built nor a scalar would be read as a
string that is not there. -/
def appendSlot (H : Heap) (o : Outside) (x : Slot) : RowBuilding PUnit := fun s ↦
  (match s.1.find x.index, scalarCell x.column (H.deref x.value) with
  | some h, _ => do
    inWorld (useValues [h])
    appendCell o x.index h.2
  | none, some v => appendCell o x.index v
  | none, none => Exits.exit .outOfFrames : RowBuilding PUnit) s

/-- `duckdb_appender_end_row`. -/
def endRow (o : Outside) : RowBuilding PUnit :=
  if o.ends then modifySink fun k ↦ { k with rows := k.rows ++ [k.current], current := [] }
  else poison "Failed to end appender row" o

/-- `pdo_duckdb_appender_append_row`. -/
def appendSlots (p : Platform) (H : Heap) (o : Outside) (xs : List Slot) : RowBuilding PUnit := do
  Exits.each (checkSlot p H o) xs
  enter o
  Exits.each (appendSlot H o) xs
  endRow o

inductive Failure
  | error (message : String)
  | stopped (stop : Stop)

structure Call where
  heap : Heap
  args : List Zval
  outside : Outside

/-- `appendRow` on an appender that is not closed. -/
def Call.appendOpen (c : Call) (p : Platform) (columns : List Column) : Exits Stop (Sink × World) PUnit :=
  match c.outside.enforced with
  | .error message => Exits.within (refuse .pdoException ("Pdo\\Duckdb\\Appender: " ++ message))
  | .ok () =>
    let ncols := columns.length
    let argc := c.args.length
    if argc ≠ ncols then
      Exits.within (refuse .valueError
        (Cells.appendRow s!"appender expects {ncols} column(s), but {argc} value(s) were given"))
    else Exits.enclosed .null Built.free (appendSlots p c.heap c.outside (slots columns c.args))

/-- `Pdo\Duckdb\Appender::appendRow()`. -/
def Call.appendRow (c : Call) (p : Platform) (columns : List Column) (s : Sink × World) :
    Except Failure Unit × Sink × World :=
  if s.1.closed then
    match allocate s.2 with
    | (.ok _, w) => (.error (.error "Pdo\\Duckdb\\Appender is closed"), s.1, w)
    | (.error stop, w) => (.error (.stopped stop), s.1, w)
  else
    match c.appendOpen p columns s with
    | (.ok _, s) => (.ok ⟨⟩, s)
    | (.error stop, s) => (.error (.stopped stop), s)

def run (p : Platform) (columns : List Column) : List Call → Sink × World → List Call × Sink × World
  | [], s => ([], s)
  | c :: calls, s =>
    let r := c.appendRow p columns s
    let rest := run p columns calls r.2
    ((if r.1.isOk then [c] else []) ++ rest.1, rest.2)

def Slot.Shape (engine : Engine) (H : Heap) (x : Slot) (v : Native) : Prop :=
  match H.deref x.value with
  | .array table => x.column.type.descFill.Shape engine H (.array table) v
  | .object className table => x.column.type.descFill.Shape engine H (.object className table) v
  | z => scalarCell x.column z = some v

def Slot.Passes (p : Platform) (H : Heap) (o : Outside) (x : Slot) : Prop :=
  ∀ kind, kindOf (H.deref x.value) = some kind →
    (x.column.planChecks p kind).Passed x.column (H.deref x.value) (o.probes x.index)

/-- After the first pass the second has something to append for an argument. -/
def Slot.Ready (p : Platform) (H : Heap) (o : Outside) (b : Built) (x : Slot) : Prop :=
  x.Passes p H o ∧
    ((∃ h, b.find x.index = some h ∧ x.Shape p.engine H h.2) ∨
      b.find x.index = none ∧ ∃ v, scalarCell x.column (H.deref x.value) = some v ∧ x.Shape p.engine H v)

/-- DuckDB refuses a value that has passed the checks, or the end of the row. -/
def Refused (p : Platform) (H : Heap) (o : Outside) (xs : List Slot) : Prop :=
  (∃ x ∈ xs, ∃ v, x.Passes p H o ∧ x.Shape p.engine H v ∧ o.appends x.index = false) ∨ o.ends = false

section Passes

variable {p : Platform} {H : Heap} {o : Outside} {xs : List Slot} {x : Slot} {b : Built} {k : Sink}
  {M : ℕ → Memory} {base : List Handle} {ss : List StringHandle} {h : Handle} {P : Sink → Prop}

/-- A state in the middle of a row, with the values in `built` and some at hand. -/
structure Inside (M : ℕ → Memory) (base : List Handle) (ss : List StringHandle) (b : Built) (k : Sink)
    (hs : List Handle) (s : Built × Sink × World) : Prop where
  built : s.1 = b
  sink : s.2.1 = k
  owes : s.2.2.Owes M (hs ++ (b.held ++ base)) ss

/-- An exit in the middle of a row, with everything in `built`. -/
def Failed (M : ℕ → Memory) (base : List Handle) (ss : List StringHandle) (P : Sink → Prop) (e : Stop)
    (s : Built × Sink × World) : Prop :=
  e ≠ .outOfFrames ∧ P s.2.1 ∧ s.2.2.Owes M (s.1.held ++ base) ss

theorem inWorld_meets {α : Type} {m : Exits Stop World α} {Q : α → World → Prop} (hP : P k)
    (hm : Meets (·.Owes M (b.held ++ base) ss) m Q (Lost M True (b.held ++ base) ss)) :
    Meets (Inside M base ss b k []) (inWorld m) (fun a s ↦ s.1 = b ∧ s.2.1 = k ∧ Q a s.2.2)
      (Failed M base ss P) := by
  rintro ⟨b', k', w⟩ ⟨rfl, rfl, howes⟩
  have hends := hm w howes
  change Ends _ _ ((m w).1, b', k', (m w).2)
  match m w, hends with
  | (.ok a, w), hends => exact ⟨rfl, rfl, hends⟩
  | (.error e, w), hends => exact ⟨hends.2.1, hP, hends.1⟩

theorem refuse_inside {α : Type} {kind : ErrorClass} {message : String}
    {Q : α → Built × Sink × World → Prop} (hP : P k) :
    Meets (Inside M base ss b k []) (inWorld (refuse kind message)) Q (Failed M base ss P) := by
  have hm : Meets (·.Owes M (b.held ++ base) ss) (refuse kind message) (fun (_ : α) _ ↦ False)
      (Lost M True (b.held ++ base) ss) := refuse_meets trivial
  exact (inWorld_meets hP hm).post fun _ _ hs ↦ hs.2.2.elim

theorem openBuilt_meets (hP : P k) : Meets (Inside M base ss b k []) openBuilt
    (fun _ ↦ Inside M base ss ⟨some (b.entries.getD [])⟩ k []) (Failed M base ss P) := by
  intro s hs
  unfold openBuilt
  cases hentries : b.entries with
  | some l =>
    rw [hs.built, hentries]
    have hb : b = ⟨some l⟩ := congrArg Built.mk hentries
    exact hb ▸ hs
  | none =>
    rw [hs.built, hentries]
    have hopen : Meets (fun s : Built × Sink × World ↦ s.1 = b ∧ s.2.1 = k ∧ s.2.2.Owes M (b.held ++ base) ss)
        (modifyBuilt fun _ ↦ ⟨some []⟩) (fun _ ↦ Inside M base ss ⟨some []⟩ k []) (Failed M base ss P) := by
      refine .step fun s ⟨hb, hk, howes⟩ ↦ ⟨rfl, hk, ?_⟩
      rwa [Built.held, hentries] at howes
    exact ((inWorld_meets hP allocate_meets).bind fun _ ↦ hopen) s hs

theorem storeBuilt_meets {l : List (ℕ × Handle)} {i : ℕ} :
    Meets (Inside M base ss ⟨some l⟩ k [h]) (storeBuilt i h)
      (fun _ ↦ Inside M base ss ⟨some (l ++ [(i, h)])⟩ k []) (Failed M base ss P) := by
  refine .step fun s hs ↦ ⟨?_, hs.sink, hs.owes.perm ?_ (.refl _)⟩
  · rw [hs.built]
    rfl
  · have hperm : ([h] ++ l.map Prod.snd).Perm (l.map Prod.snd ++ [h]) := List.perm_append_comm
    simpa [Built.held] using hperm.append_right base

theorem find_append {l : List (ℕ × Handle)} {i j : ℕ} :
    Built.find ⟨some (l ++ [(i, h)])⟩ j = (Built.find ⟨some l⟩ j).or (if j = i then some h else none) := by
  simp only [Built.find, Option.getD_some, List.lookup_append, List.lookup_cons, List.lookup_nil]
  by_cases hj : j = i
  · simp [hj]
  · have hbeq : (j == i) = false := beq_eq_false_iff_ne.mpr hj
    simp [hj, hbeq]

/-- A turn of the first pass: its own entry is ready, the others are as they were. -/
structure Extends (p : Platform) (H : Heap) (o : Outside) (x : Slot) (b b' : Built) : Prop where
  ready : x.Ready p H o b'
  others : ∀ i, i ≠ x.index → b'.find i = b.find i

theorem checkScalar_meets (hP : P k) {kind : Kind} (hkind : kindOf (H.deref x.value) = some kind)
    (hfind : b.find x.index = none) :
    Meets (Inside M base ss b k [])
      (inWorld (runCheck p (x.index + 1) x.column (H.deref x.value) (o.probes x.index)
        (x.column.planChecks p kind)))
      (fun _ s ↦ Extends p H o x b b ∧ Inside M base ss b k [] s) (Failed M base ss P) := by
  refine (inWorld_meets hP runCheck_meets).post fun _ s ⟨hb, hk, hpassed, howes⟩ ↦ ⟨⟨⟨?_, ?_⟩, fun _ _ ↦ rfl⟩, hb, hk, howes⟩
  · intro kind' hkind'
    cases hkind.symm.trans hkind'
    exact hpassed
  · refine .inr ⟨hfind, ?_⟩
    unfold Slot.Shape
    cases hz : H.deref x.value with
    | bool _ | long _ | double _ | string _ => exact ⟨_, rfl, rfl⟩
    | null | array _ | object _ _ | resource | reference _ =>
      rw [hz] at hkind
      cases hkind

/-- A value is built for an array or an object. -/
theorem checkNested_meets (hP : P k) {z : Zval} (hz : H.deref x.value = z) (hkind : kindOf z = none)
    (hshape : ∀ v, x.column.type.descFill.Shape p.engine H z v → x.Shape p.engine H v)
    (hfind : b.find x.index = none) :
    Meets (Inside M base ss b k [])
      (do
        openBuilt
        let h ← inWorld (buildValue p.engine H (x.index + 1) 0 z x.column.type.descFill)
        storeBuilt x.index h)
      (fun _ s ↦ ∃ b', Extends p H o x b b' ∧ Inside M base ss b' k [] s) (Failed M base ss P) := by
  refine (openBuilt_meets hP).bind fun _ ↦ ?_
  refine (inWorld_meets hP (buildValueBelow_buildsShape _ M _ ss)).bind fun h ↦ ?_
  intro s ⟨hb, hk, hbuilt, howes⟩
  have hstored : Meets (Inside M base ss ⟨some (b.entries.getD [])⟩ k [h]) (storeBuilt x.index h)
      (fun _ ↦ Inside M base ss ⟨some (b.entries.getD [] ++ [(x.index, h)])⟩ k []) (Failed M base ss P) :=
    storeBuilt_meets
  refine (hstored s ⟨hb, hk, howes⟩).mono (fun _ s hs ↦ ⟨_, ⟨⟨fun kind hsome ↦ ?_, .inl ⟨h, ?_, hshape h.2 hbuilt⟩⟩, ?_⟩, hs⟩)
    fun _ _ hs ↦ hs
  · rw [hz, hkind] at hsome
    cases hsome
  · rw [find_append, if_pos rfl]
    have hnone : Built.find ⟨some (b.entries.getD [])⟩ x.index = none := hfind
    rw [hnone]
    rfl
  · intro i hi
    rw [find_append, if_neg hi, Option.or_none]
    rfl

theorem checkSlot_meets (hP : P k) (hfind : b.find x.index = none) :
    Meets (Inside M base ss b k []) (checkSlot p H o x)
      (fun _ s ↦ ∃ b', Extends p H o x b b' ∧ Inside M base ss b' k [] s) (Failed M base ss P) := by
  unfold checkSlot
  cases hz : H.deref x.value with
  | bool _ | long _ | double _ | string _ =>
    dsimp only [kindOf]
    rw [← hz]
    exact (checkScalar_meets hP (by rw [hz]; rfl) hfind).post fun _ s hs ↦ ⟨b, hs⟩
  | null =>
    refine .pure fun s hs ↦ ⟨b, ⟨⟨fun kind hkind ↦ ?_, .inr ⟨hfind, .null, ?_⟩⟩, fun _ _ ↦ rfl⟩, hs⟩
    · rw [hz] at hkind
      cases hkind
    · unfold Slot.Shape
      rw [hz]
      exact ⟨rfl, rfl⟩
  | array table =>
    refine checkNested_meets hP hz rfl (fun v hv ↦ ?_) hfind
    unfold Slot.Shape
    rwa [hz]
  | object className table =>
    refine checkNested_meets hP hz rfl (fun v hv ↦ ?_) hfind
    unfold Slot.Shape
    rwa [hz]
  | resource => exact refuse_inside hP
  | reference _ => exact refuse_inside hP

/-- The first pass leaves every argument ready, or nothing. -/
theorem checkSlots_meets (hP : P k) (hdistinct : (xs.map Slot.index).Nodup) :
    Meets (Inside M base ss .null k []) (each (checkSlot p H o) xs)
      (fun _ s ↦ ∃ b, (∀ x ∈ xs, x.Ready p H o b) ∧ Inside M base ss b k [] s) (Failed M base ss P) := by
  let I := fun (done : List Slot) s ↦ ∃ b, (∀ x ∈ done, x.Ready p H o b) ∧
    (∀ i, i ∉ done.map Slot.index → b.find i = none) ∧ Inside M base ss b k [] s
  have hstart (s : Built × Sink × World) (hs : Inside M base ss .null k [] s) : I [] s :=
    ⟨.null, by simp, fun _ _ ↦ rfl, hs⟩
  have hloop : Meets (I []) (each (checkSlot p H o) xs) (fun _ ↦ I xs) (Failed M base ss P) := by
    refine Meets.each fun done x rest hsplit ↦ .exists_pre fun b ↦ ?_
    refine .assume (fun _ hs ↦ hs.1) fun hready ↦ .assume (fun _ hs ↦ hs.2.1) fun hothers ↦ ?_
    rw [hsplit, List.map_append, List.map_cons] at hdistinct
    have hnotin : x.index ∉ done.map Slot.index := fun hmem ↦
      List.disjoint_of_nodup_append hdistinct hmem List.mem_cons_self
    refine (Meets.pre (checkSlot_meets hP (hothers x.index hnotin)) fun _ hs ↦ hs.2.2).post ?_
    intro _ s ⟨b', hextends, hs⟩
    refine ⟨b', fun y hy ↦ ?_, fun i hi ↦ ?_, hs⟩
    · rcases List.mem_append.mp hy with hy | hy
      · have hne : y.index ≠ x.index := fun heq ↦ hnotin (heq ▸ List.mem_map_of_mem hy)
        obtain ⟨hpasses, hvalue⟩ := hready y hy
        refine ⟨hpasses, ?_⟩
        rwa [hextends.others y.index hne]
      · rw [List.mem_singleton.mp hy]
        exact hextends.ready
    · rw [List.map_append, List.mem_append, not_or] at hi
      rw [hextends.others i fun heq ↦ hi.2 (by simp [heq])]
      exact hothers i hi.1
  exact (hloop.pre hstart).post fun _ s ⟨b, hready, _, hs⟩ ↦ ⟨b, hready, hs⟩

theorem modifySink_meets {f : Sink → Sink} : Meets (Inside M base ss b k []) (modifySink f)
    (fun _ ↦ Inside M base ss b (f k) []) (Failed M base ss P) :=
  .step fun _ hs ↦ ⟨hs.built, congrArg f hs.sink, hs.owes⟩

theorem useBuilt_meets (hmem : h ∈ b.held) : Meets (Inside M base ss b k []) (inWorld (useValues [h]))
    (fun _ ↦ Inside M base ss b k []) (Failed M base ss P) := by
  intro s hs
  have hused : ∀ h' ∈ [h], h' ∈ b.held ++ base := fun h' hh' ↦
    List.mem_append_left base (List.mem_singleton.mp hh' ▸ hmem)
  exact ⟨hs.built, hs.sink, (useValues_meets (R := fun _ _ ↦ False) hused) s.2.2 hs.owes⟩

/-- A native call that fails closes the appender first. -/
theorem poison_meets {what : String} {Q : PUnit → Built × Sink × World → Prop}
    (hP : P { k with closed := true }) :
    Meets (Inside M base ss b k []) (poison what o) Q (Failed M base ss P) :=
  modifySink_meets.bind fun _ ↦ refuse_inside hP

theorem Built.mem_held {i : ℕ} (hfind : b.find i = some h) : h ∈ b.held := by
  obtain ⟨l, r, hsplit, -⟩ := List.lookup_eq_some_iff.mp hfind
  rw [Built.held, hsplit]
  simp

theorem appendCell_meets {v : Native} {i : ℕ} (hP : o.appends i = false → P { k with closed := true }) :
    Meets (Inside M base ss b k []) (appendCell o i v)
      (fun _ ↦ Inside M base ss b { k with current := k.current ++ [v] } []) (Failed M base ss P) := by
  unfold appendCell
  split_ifs with hok
  · exact modifySink_meets
  · exact poison_meets (hP (Bool.eq_false_iff.mpr hok))

theorem appendSlot_meets (hready : x.Ready p H o b)
    (hP : ∀ v, x.Shape p.engine H v → o.appends x.index = false → P { k with closed := true }) :
    Meets (Inside M base ss b k []) (appendSlot H o x)
      (fun _ s ↦ ∃ v, x.Shape p.engine H v ∧
        Inside M base ss b { k with current := k.current ++ [v] } [] s) (Failed M base ss P) := by
  intro s hs
  unfold appendSlot
  rw [hs.built]
  obtain ⟨-, ⟨h, hfind, hshape⟩ | ⟨hfind, v, hcell, hshape⟩⟩ := hready
  · rw [hfind]
    have happend : Meets (Inside M base ss b k []) (inWorld (useValues [h]) >>= fun _ ↦ appendCell o x.index h.2)
        _ (Failed M base ss P) :=
      (useBuilt_meets (Built.mem_held hfind)).bind fun _ ↦ appendCell_meets (hP h.2 hshape)
    exact (happend s hs).mono (fun _ s hs ↦ ⟨h.2, hshape, hs⟩) fun _ _ hs ↦ hs
  · rw [hfind, hcell]
    exact (appendCell_meets (hP v hshape) s hs).mono (fun _ s hs ↦ ⟨v, hshape, hs⟩) fun _ _ hs ↦ hs

/-- The second pass gives the appender the arguments in order. -/
theorem appendPass_meets (hready : ∀ x ∈ xs, x.Ready p H o b)
    (hP : ∀ k', k'.rows = k.rows → k'.closed → Refused p H o xs → P k') :
    Meets (Inside M base ss b k []) (each (appendSlot H o) xs)
      (fun _ s ↦ ∃ vs, List.Forall₂ (Slot.Shape p.engine H) xs vs ∧
        Inside M base ss b { k with current := k.current ++ vs } [] s) (Failed M base ss P) := by
  let I := fun (done : List Slot) s ↦ ∃ vs, List.Forall₂ (Slot.Shape p.engine H) done vs ∧
    Inside M base ss b { k with current := k.current ++ vs } [] s
  have hstart (s : Built × Sink × World) (hs : Inside M base ss b k [] s) : I [] s :=
    ⟨[], .nil, hs.built, by rw [hs.sink, List.append_nil], hs.owes⟩
  have hloop : Meets (I []) (each (appendSlot H o) xs) (fun _ ↦ I xs) (Failed M base ss P) := by
    refine Meets.each fun done x rest hsplit ↦ .exists_pre fun vs ↦ .assume (fun _ hs ↦ hs.1) fun hvs ↦ ?_
    have hx : x ∈ xs := hsplit ▸ List.mem_append_right done List.mem_cons_self
    have hturn : Meets (Inside M base ss b { k with current := k.current ++ vs } []) (appendSlot H o x) _
        (Failed M base ss P) := appendSlot_meets (hready x hx) fun v hv hrefused ↦
      hP _ rfl rfl (.inl ⟨x, hx, v, (hready x hx).1, hv, hrefused⟩)
    refine (hturn.pre fun _ hs ↦ hs.2).post fun _ s ⟨v, hv, hs⟩ ↦ ⟨vs ++ [v], List.rel_append hvs (.cons hv .nil), ?_⟩
    rwa [List.append_assoc] at hs
  exact hloop.pre hstart

theorem endRow_meets (hP : o.ends = false → P { k with closed := true }) :
    Meets (Inside M base ss b k []) (endRow o)
      (fun _ ↦ Inside M base ss b { k with rows := k.rows ++ [k.current], current := [] } [])
      (Failed M base ss P) := by
  unfold endRow
  split_ifs with hends
  · exact modifySink_meets
  · exact poison_meets (hP (Bool.eq_false_iff.mpr hends))

theorem enter_meets (hP : P k) : Meets (Inside M base ss b k []) (enter o)
    (fun _ ↦ Inside M base ss b k []) (Failed M base ss P) := by
  unfold enter
  split
  · exact .pure fun _ hs ↦ hs
  · exact refuse_inside hP

def AfterFailure (p : Platform) (H : Heap) (o : Outside) (xs : List Slot) (k k' : Sink) : Prop :=
  k' = k ∨ k'.rows = k.rows ∧ k'.closed ∧ Refused p H o xs

/-- Both passes: the whole row is in the appender, or none of it and the appender is as it was,
or DuckDB has refused it and the appender is closed. -/
theorem appendSlots_meets (hdistinct : (xs.map Slot.index).Nodup) :
    Meets (Inside M base ss .null k []) (appendSlots p H o xs)
      (fun _ s ↦ ∃ vs b, List.Forall₂ (Slot.Shape p.engine H) xs vs ∧
        Inside M base ss b { k with rows := k.rows ++ [k.current ++ vs], current := [] } [] s)
      (Failed M base ss (AfterFailure p H o xs k)) := by
  unfold appendSlots
  refine (checkSlots_meets (.inl rfl) hdistinct).bind fun _ ↦ .exists_pre fun b ↦ ?_
  refine .assume (fun _ hs ↦ hs.1) fun hready ↦ Meets.pre ?_ fun _ hs ↦ hs.2
  refine (enter_meets (.inl rfl)).bind fun _ ↦ ?_
  have hpoisoned (k' : Sink) (hrows : k'.rows = k.rows) (hclosed : k'.closed) (hrefused : Refused p H o xs) :
      AfterFailure p H o xs k k' := .inr ⟨hrows, hclosed, hrefused⟩
  refine (appendPass_meets hready hpoisoned).bind fun _ ↦ .exists_pre fun vs ↦ ?_
  refine .assume (fun _ hs ↦ hs.1) fun hvs ↦ Meets.pre ?_ fun _ hs ↦ hs.2
  have hend : Meets (Inside M base ss b { k with current := k.current ++ vs } []) (endRow o) _
      (Failed M base ss (AfterFailure p H o xs k)) :=
    endRow_meets fun hends ↦ hpoisoned _ rfl rfl (.inr hends)
  exact hend.post fun _ s hs ↦ ⟨vs, b, hvs, hs⟩

end Passes

section Calls

variable {p : Platform} {columns : List Column} {c : Call} {calls : List Call} {s : Sink × World}
  {M : ℕ → Memory} {hs : List Handle} {ss : List StringHandle}

theorem slots_distinct (columns : List Column) (args : List Zval) :
    ((slots columns args).map Slot.index).Nodup := by
  have h : (slots columns args).map Slot.index = List.range (columns.zip args).length := by
    simp [slots, List.map_map, Function.comp_def, List.zipIdx_map_snd, List.range_eq_range']
  rw [h]
  exact List.nodup_range

/-- The row of a call: a value for each of the arguments, which are as many as the columns. -/
structure Call.HasRow (p : Platform) (columns : List Column) (c : Call) (row : List Native) : Prop where
  arity : c.args.length = columns.length
  shape : List.Forall₂ (Slot.Shape p.engine c.heap) (slots columns c.args) row

def Call.Refused (p : Platform) (columns : List Column) (c : Call) : Prop :=
  Rows.Refused p c.heap c.outside (slots columns c.args)

inductive Outcome (p : Platform) (columns : List Column) (c : Call) (k : Sink) : Bool → Sink → Prop
  | kept : Outcome p columns c k false k
  | added (row : List Native) (unclosed : k.closed = false) (row_shape : c.HasRow p columns row) :
    Outcome p columns c k true { k with rows := k.rows ++ [k.current ++ row], current := [] }
  | poisoned (k' : Sink) (unclosed : k.closed = false) (closed : k'.closed) (rows : k'.rows = k.rows)
    (refused : c.Refused p columns) : Outcome p columns c k false k'

theorem Call.appendOpen_meets {k : Sink} (hopen : k.closed = false) :
    Meets (fun s ↦ s.1 = k ∧ s.2.Owes M hs ss) (c.appendOpen p columns)
      (fun _ s ↦ Outcome p columns c k true s.1 ∧ s.2.Owes M hs ss)
      (fun e s ↦ e ≠ .outOfFrames ∧ Outcome p columns c k false s.1 ∧ s.2.Owes M hs ss) := by
  have hrefuse {kind : ErrorClass} {message : String} :
      Meets (fun s : Sink × World ↦ s.1 = k ∧ s.2.Owes M hs ss) (Exits.within (refuse kind message))
        (fun (_ : PUnit) s ↦ Outcome p columns c k true s.1 ∧ s.2.Owes M hs ss)
        (fun e s ↦ e ≠ .outOfFrames ∧ Outcome p columns c k false s.1 ∧ s.2.Owes M hs ss) := by
    refine .within fun k' ↦ .assume (p := k' = k) (fun _ hw ↦ hw.1) fun hk' ↦ ?_
    have hm : Meets (·.Owes M hs ss) (refuse kind message) (fun (_ : PUnit) _ ↦ False) (Lost M True hs ss) :=
      refuse_meets trivial
    exact hm.mono (fun _ hw ↦ hw.2) (fun _ _ hw ↦ hw.elim) fun e w hw ↦ ⟨hw.2.1, hk' ▸ .kept, hw.1⟩
  unfold Call.appendOpen
  split
  · exact hrefuse
  · dsimp only
    split_ifs with harity
    · exact hrefuse
    · have hfree {b : Built} {w : World} (h : w.Owes M (b.held ++ hs) ss) : (w.destroyAll b.held).Owes M hs ss :=
        ⟨h.memory, h.values.releaseAll, h.strings⟩
      have hrow : Meets (Inside M hs ss .null k []) (appendSlots p c.heap c.outside (slots columns c.args)) _ _ :=
        appendSlots_meets (slots_distinct columns c.args)
      refine .enclosed (hrow.mono (fun s hs ↦ ⟨hs.1, hs.2.1, hs.2.2⟩) ?_ ?_)
      · rintro _ ⟨b', k', w⟩ ⟨vs, b, hvs, rfl, hk', howes⟩
        refine ⟨?_, hfree howes⟩
        change Outcome p columns c k true k'
        cases hk'
        exact .added vs hopen ⟨not_not.mp harity, hvs⟩
      · rintro e ⟨b', k', w⟩ ⟨he, hk', howes⟩
        refine ⟨he, ?_, hfree howes⟩
        change Outcome p columns c k false k'
        rcases hk' with hk' | ⟨hrows, hclosed, hrefused⟩
        · cases hk'
          exact .kept
        · exact .poisoned k' hopen hclosed hrows hrefused

theorem Call.appendRow_outcome (p : Platform) (columns : List Column) (c : Call) (hw : s.2.Owes M hs ss) :
    (c.appendRow p columns s).1 ≠ .error (.stopped .outOfFrames) ∧
      Outcome p columns c s.1 (c.appendRow p columns s).1.isOk (c.appendRow p columns s).2.1 ∧
        (c.appendRow p columns s).2.2.Owes M hs ss := by
  unfold Call.appendRow
  split_ifs with hclosed
  · have hallocate : Ends _ (Lost M True hs ss) (allocate s.2) := allocate_meets s.2 hw
    match allocate s.2, hallocate with
    | (.ok _, w), hw => exact ⟨by simp, .kept, hw⟩
    | (.error stop, w), hw => exact ⟨by simpa using hw.2.1, .kept, hw.1⟩
  · have hpre : s.1 = s.1 ∧ s.2.Owes M hs ss := ⟨rfl, hw⟩
    have hends : Ends _ _ (c.appendOpen p columns s) :=
      Call.appendOpen_meets (Bool.eq_false_iff.mpr hclosed) s hpre
    match c.appendOpen p columns s, hends with
    | (.ok _, s), hends => exact ⟨by simp, hends⟩
    | (.error stop, s), hends => exact ⟨by simpa using hends.1, hends.2⟩

/-- What calls come to on an appender with no cells after its rows: `added` are those that have
added their row. -/
structure Ran (p : Platform) (columns : List Column) (calls : List Call) (k : Sink) (added : List Call)
    (k' : Sink) : Prop where
  order : added.Sublist calls
  rows : ∃ rows, k'.rows = k.rows ++ rows ∧ List.Forall₂ (Call.HasRow p columns) added rows
  current : k'.closed = false → k'.current = []
  dead : k.closed → k' = k ∧ added = []
  closed : k.closed = false → k'.closed → ∃ c ∈ calls, c.Refused p columns

theorem Outcome.ran {k k' : Sink} {ok : Bool} (h : Outcome p columns c k ok k')
    (hcurrent : k.closed = false → k.current = []) : Ran p columns [c] k (if ok then [c] else []) k' := by
  cases h with
  | kept =>
    exact ⟨List.nil_sublist _, ⟨[], (List.append_nil _).symm, .nil⟩, hcurrent, fun _ ↦ ⟨rfl, rfl⟩,
      fun hopen hclosed ↦ absurd hclosed (Bool.eq_false_iff.mp hopen)⟩
  | added row unclosed row_shape =>
    refine ⟨.refl _, ⟨[row], ?_, .cons row_shape .nil⟩, fun _ ↦ rfl, fun hclosed ↦ ?_, fun hopen hclosed ↦ ?_⟩
    · rw [hcurrent unclosed]
      rfl
    · exact absurd hclosed (Bool.eq_false_iff.mp unclosed)
    · exact absurd hclosed (Bool.eq_false_iff.mp unclosed)
  | poisoned k' unclosed closed rows refused =>
    refine ⟨List.nil_sublist _, ⟨[], ?_, .nil⟩, fun hopen ↦ ?_, fun hclosed ↦ ?_, fun _ _ ↦ ⟨c, List.mem_singleton_self c, refused⟩⟩
    · rw [rows, List.append_nil]
    · exact absurd closed (Bool.eq_false_iff.mp hopen)
    · exact absurd hclosed (Bool.eq_false_iff.mp unclosed)

theorem Ran.trans {calls' added added' : List Call} {k k' k'' : Sink} (h : Ran p columns calls k added k')
    (h' : Ran p columns calls' k' added' k'') : Ran p columns (calls ++ calls') k (added ++ added') k'' where
  order := h.order.append h'.order
  rows := by
    obtain ⟨rows, hrows, hshape⟩ := h.rows
    obtain ⟨rows', hrows', hshape'⟩ := h'.rows
    exact ⟨rows ++ rows', by rw [hrows', hrows, List.append_assoc], List.rel_append hshape hshape'⟩
  current := h'.current
  dead := by
    intro hclosed
    obtain ⟨rfl, rfl⟩ := h.dead hclosed
    obtain ⟨rfl, rfl⟩ := h'.dead hclosed
    exact ⟨rfl, rfl⟩
  closed := by
    intro hopen hclosed
    by_cases hbetween : k'.closed
    · obtain ⟨c, hc, hrefused⟩ := h.closed hopen hbetween
      exact ⟨c, List.mem_append_left calls' hc, hrefused⟩
    · obtain ⟨c, hc, hrefused⟩ := h'.closed (Bool.eq_false_iff.mpr hbetween) hclosed
      exact ⟨c, List.mem_append_right calls hc, hrefused⟩

theorem run_outcome (p : Platform) (columns : List Column) (calls : List Call) (hw : s.2.Owes M hs ss)
    (hcurrent : s.1.closed = false → s.1.current = []) :
    Ran p columns calls s.1 (run p columns calls s).1 (run p columns calls s).2.1 ∧
      (run p columns calls s).2.2.Owes M hs ss := by
  induction calls generalizing s with
  | nil =>
    refine ⟨⟨.refl _, ⟨[], (List.append_nil _).symm, .nil⟩, hcurrent, fun _ ↦ ⟨rfl, rfl⟩, fun hopen hclosed ↦ ?_⟩, hw⟩
    exact absurd hclosed (Bool.eq_false_iff.mp hopen)
  | cons c calls ih =>
    obtain ⟨-, houtcome, howes⟩ := c.appendRow_outcome p columns hw
    have hfirst := houtcome.ran hcurrent
    obtain ⟨hrest, hleft⟩ := ih howes hfirst.current
    exact ⟨hfirst.trans hrest, hleft⟩

/-- Whatever the rows, the probes, the memory and the native calls are, an appender has exactly
the rows of the calls that have returned, in order, each value of them under its column, and
nothing of any other call while it is not closed; it is closed only where DuckDB has refused
what the checks have passed, and then for good; and no value that was built is left. -/
theorem run_ran (p : Platform) (columns : List Column) (calls : List Call) (hw : s.2.Owes M hs ss)
    (hcurrent : s.1.closed = false → s.1.current = []) :
    Ran p columns calls s.1 (run p columns calls s).1 (run p columns calls s).2.1 ∧
      (run p columns calls s).2.2.Owes M hs ss ∧
        ∀ c : Call, (c.appendRow p columns (run p columns calls s).2).1 ≠ .error (.stopped .outOfFrames) := by
  obtain ⟨hran, howes⟩ := run_outcome p columns calls hw hcurrent
  exact ⟨hran, howes, fun c ↦ (c.appendRow_outcome p columns howes).1⟩

def plainPlatform : Platform := ⟨plainEngine, fun _ ↦ "", fun n ↦ 10 ^ n⟩

/-- `DECIMAL(4,1)`. -/
def shortDecimal : DecimalType := ⟨4, 1, by decide, by decide, by decide⟩

example : decimalBound plainPlatform shortDecimal = nearest (9999 / 10) := by decide +kernel

/-- `CREATE TABLE t (a TINYINT, b STRUCT(a TINYINT, b VARCHAR[]))`. -/
def mixedColumns : List Column := [⟨.leaf (.integer .tinyint), true, shortDecimal⟩, ⟨structColumn, false, shortDecimal⟩]

def willing : Outside := ⟨.ok (), fun _ ↦ .accepted, .ok (), fun _ ↦ true, true, ""⟩

/-- A row; one with a number out of range, after which nothing is built; one the last value of
which DuckDB refuses; and one more. -/
def mixedCalls : List Call :=
  [⟨structHeap, [.long 5, .array 0], willing⟩, ⟨structHeap, [.array 0, .long 300], willing⟩,
    ⟨structHeap, [.null, .array 0], { willing with appends := (· ≠ 1) }⟩, ⟨structHeap, [.long 6, .null], willing⟩]

def freshSink : Sink × World := (⟨false, [], []⟩, .empty)

theorem run_ran_mixed :
    Ran plainPlatform mixedColumns mixedCalls freshSink.1 (run plainPlatform mixedColumns mixedCalls freshSink).1
        (run plainPlatform mixedColumns mixedCalls freshSink).2.1 ∧
      (run plainPlatform mixedColumns mixedCalls freshSink).1.length = 1 :=
  ⟨(run_ran (s := freshSink) plainPlatform mixedColumns mixedCalls World.owes_empty fun _ ↦ rfl).1, by decide⟩

end Calls

section Lifecycle

variable {p : Platform} {columns : List Column} {c : Call} {k k' : Sink} {ok : Bool} {st : State}
  {id : AppenderId}

/-- An appender of the lifecycle with as many rows buffered, none of them written yet. -/
def Matches (st : State) (id : AppenderId) (k : Sink) : Prop :=
  ∃ buffer, st.appenders id = some ⟨some buffer, k.closed⟩ ∧ buffer.length = k.rows.length

theorem liveBuffer_of_open {buffer : List Row} (h : st.appenders id = some ⟨some buffer, k.closed⟩)
    (hopen : k.closed = false) : st.liveBuffer id = some buffer := by
  rw [State.liveBuffer, h, hopen]

/-- A call is an `appendRow` of the lifecycle, with what the two passes come to for its answers. -/
theorem Outcome.simulated (h : Outcome p columns c k ok k') (hm : Matches st id k) :
    ∃ o, (st.appendRow id o).2.isOk = ok ∧ Matches (st.appendRow id o).1 id k' := by
  obtain ⟨buffer, hbuffer, hlength⟩ := hm
  cases h with
  | kept =>
    refine ⟨⟨.ok (), .error "", .ok (), [], .done false, ""⟩, ?_⟩
    unfold State.appendRow
    cases st.liveBuffer id <;> exact ⟨rfl, buffer, hbuffer, hlength⟩
  | added row unclosed _ =>
    refine ⟨⟨.ok (), .ok (), .ok (), [], .done false, ""⟩, ?_⟩
    unfold State.appendRow
    rw [liveBuffer_of_open hbuffer unclosed]
    refine ⟨rfl, buffer ++ [st.next], ?_, by simp [hlength]⟩
    exact (Function.update_self id _ _).trans (by rw [unclosed])
  | poisoned k' unclosed closed rows _ =>
    refine ⟨⟨.ok (), .ok (), .ok (), [false], .done false, ""⟩, ?_⟩
    unfold State.appendRow
    rw [liveBuffer_of_open hbuffer unclosed]
    refine ⟨rfl, buffer, ?_, by rw [hlength, rows]⟩
    exact (Function.update_self id _ _).trans (by rw [closed])

/-- Every run of calls is a run of the lifecycle. -/
theorem run_simulated {M : ℕ → Memory} {hs : List Handle} {ss : List StringHandle} (p : Platform)
    (columns : List Column) (calls : List Call) {s : Sink × World} (hw : s.2.Owes M hs ss)
    (hm : Matches st id s.1) :
    ∃ os : List Appending, os.length = calls.length ∧
      Matches (os.foldl (fun st o ↦ (st.appendRow id o).1) st) id (run p columns calls s).2.1 := by
  induction calls generalizing s st with
  | nil => exact ⟨[], rfl, hm⟩
  | cons c calls ih =>
    obtain ⟨-, houtcome, howes⟩ := c.appendRow_outcome p columns hw
    obtain ⟨o, -, hfirst⟩ := houtcome.simulated hm
    obtain ⟨os, hlength, hrest⟩ := ih howes hfirst
    exact ⟨o :: os, congrArg Nat.succ hlength, hrest⟩

end Lifecycle

end PdoDuckdb.Appenders.Rows
