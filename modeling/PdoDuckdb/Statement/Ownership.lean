import PdoDuckdb.Library.Runs
import PdoDuckdb.Statement.Caches

namespace PdoDuckdb.Statement

open Library

variable {s s' s'' : State} {S S' : StmtAddress} {t t' : Stmt} {a : ChunkAddress} {c i : ℕ}
  {object : Chunk} {cache : ChunkCache} {memory : Memory} {grows copied : Bool} {r : ColumnRead}
  {reads : List ColumnRead}

theorem Chunk.vectors_getElem? : object.vectors[i]? = object.getVector i := by
  simp [vectors, getVector, List.getElem?_mapIdx]

def ChunkCache.Holds (cache : ChunkCache) (object : Chunk) : Prop :=
  cache.ncols = object.vectors.length ∧
    ∀ i < cache.ncols, cache.vecs[i]? = object.getVector i ∧
      cache.datas[i]? = (object.getVector i).map Vector.data ∧
      cache.validities[i]? = (object.getVector i).map Vector.validity

theorem ChunkCache.holds_fill : (cache.fill a object.vectors).Holds object := by
  refine ⟨rfl, fun i hi ↦ ?_⟩
  have hi : i < object.vectors.length := hi
  refine ⟨?_, ?_, ?_⟩
  · rw [← Chunk.vectors_getElem?]
    exact List.getElem?_append_left hi
  · rw [← Chunk.vectors_getElem?, ← List.getElem?_map]
    apply List.getElem?_append_left
    simpa using hi
  · rw [← Chunk.vectors_getElem?, ← List.getElem?_map]
    apply List.getElem?_append_left
    simpa using hi

/-- A load that publishes an entry has read the chunk that it is published for. -/
theorem ChunkCache.load_holds {chunk : Option ChunkAddress}
    (h : (cache.load memory chunk grows).chunk = some a) :
    chunk = some a ∧ ∃ object, memory a = some object ∧
      (cache.load memory chunk grows).Holds object := by
  cases chunk with
  | none => cases h
  | some b =>
    cases hb : memory b with
    | none => simp [load, hb] at h
    | some object =>
      by_cases hg : cache.cap < object.vectors.length ∧ ¬ grows
      · simp [load, hb, hg] at h
      · simp only [load, hb, if_neg hg] at h ⊢
        obtain rfl : b = a := Option.some.inj h
        exact ⟨rfl, object, hb, holds_fill⟩

theorem ChunkCache.invalidate_chunk (h : (cache.invalidate (some a)).chunk = some c) :
    cache.invalidate (some a) = cache ∧ c ≠ a := by
  unfold invalidate at *
  split_ifs at h ⊢ with ha
  · refine ⟨rfl, ?_⟩
    rintro rfl
    exact ha ⟨rfl, h⟩

theorem Column.aux_flagged {type : Column} (h : (type.aux copied).flagged) :
    type.aux copied = type.aux true := by
  unfold aux at *
  split_ifs at h ⊢ <;> simp_all [ColAux.flagged, ColAux.zero]

def ColAuxCache.BuiltFor (cols : ColAuxCache) (t : Stmt) : Prop :=
  cols.result = t.result ∧ ∀ i < cols.ncols, ∀ aux, cols.cols[i]? = some aux → aux.flagged →
    ∃ type, t.columns[i]? = some type ∧ aux = type.aux true

theorem ColAuxCache.release_owner {cols : ColAuxCache} (h : (cols.release S).owner = some S') :
    cols.release S = cols ∧ S' ≠ S := by
  unfold release at *
  split_ifs at h ⊢ with ho
  · refine ⟨rfl, ?_⟩
    rintro rfl
    exact ho h

theorem ColAuxCache.cache_owner {cols : ColAuxCache} {copied : ℕ → Bool}
    (h : (cols.cache S t.result t.columns grows copied).owner = some S') :
    S' = S ∧ (cols.cache S t.result t.columns grows copied).BuiltFor t := by
  unfold cache at *
  dsimp only at *
  split_ifs at h ⊢ with hg
  · refine ⟨(Option.some.inj h).symm, rfl, ?_⟩
    intro i hi aux haux hf
    have hi : i < t.columns.length := hi
    rw [List.getElem?_append_left (by simpa using hi), List.getElem?_mapIdx,
      List.getElem?_eq_getElem hi] at haux
    obtain rfl := Option.some.inj haux
    exact ⟨t.columns[i], List.getElem?_eq_getElem hi, Column.aux_flagged hf⟩

theorem ColAuxCache.find_builtFor {cols : ColAuxCache} {u : ℕ × ColAux}
    (h : cols.find S c = some u) :
    cols.owner = some S ∧ ∀ t, cols.BuiltFor t →
      u.1 = t.result ∧ ∃ type, t.columns[c]? = some type ∧ u.2 = type.aux true := by
  unfold find at h
  split_ifs at h with ho
  push Not at ho
  refine ⟨ho.1, fun t ht ↦ ?_⟩
  cases haux : cols.cols[c]? with
  | none => simp [haux] at h
  | some aux =>
    simp only [haux, Option.ite_none_right_eq_some] at h
    obtain ⟨hf, hu⟩ := h
    obtain rfl := Option.some.inj hu
    exact ⟨ht.1, ht.2 c ho.2 aux haux hf⟩

structure Sound (s : State) : Prop where
  chunks : ∀ S t a, s.stmts S = some t → t.chunk = some a →
    t.hasResult ∧ ∃ object, s.memory a = some object ∧ object.fetchedFor = some (S, t.result)
  cache : ∀ a, s.cache.chunk = some a →
    ∃ object, s.memory a = some object ∧ object.fetchedFor.isSome ∧ s.cache.Holds object
  aux : ∀ S, s.colAux.owner = some S → ∃ t, s.stmts S = some t ∧ s.colAux.BuiltFor t

/-- A read of the current row of a statement goes through the vector of its
current chunk, and through auxiliary data of its current result. -/
def ColumnRead.Own (r : ColumnRead) (s : State) (t : Stmt) : Prop :=
  r.row = t.cur ∧ r.vec = s.getVector t r.column ∧ r.data = r.vec.map Vector.data ∧
    r.validity = r.vec.bind Vector.validity ∧
    ∀ u ∈ r.aux, u.1 = t.result ∧ ∃ type, t.columns[r.column]? = some type ∧ u.2 = type.aux true

def OwnCells (s : State) (S : StmtAddress) (t : Stmt) (cells : List (Option ColumnRead)) : Prop :=
  ∀ c (r : ColumnRead), cells[c]? = some (some r) → r.stmt = S ∧ r.column = c ∧ r.Own s t

def OwnRow (s : State) (S : StmtAddress) (t : Stmt) : Prop :=
  OwnCells s S t t.rowValues ∧ OwnCells s S t t.rowCanonical

def Kept (s s' : State) (S : StmtAddress) : Prop :=
  ∀ S' ≠ S, s'.stmts S' = s.stmts S' ∧
    ∀ t a, s.stmts S' = some t → t.chunk = some a → s'.memory a = s.memory a

theorem Kept.trans (h : Kept s s' S) (h' : Kept s' s'' S) : Kept s s'' S := by
  intro S' hne
  obtain ⟨hs, hm⟩ := h S' hne
  obtain ⟨hs', hm'⟩ := h' S' hne
  refine ⟨hs'.trans hs, fun t a ht ha ↦ ?_⟩
  rw [hm' t a (hs.trans ht) ha, hm t a ht ha]

def Stmt.reset (t : Stmt) : Stmt :=
  { t.clearConvertedRow true with
    variantCols := []
    columns := []
    hasResult := false
    chunk := none
    chunkSize := 0
    cur := 0
    started := false
    done := false }

namespace State

@[simp] theorem put_stmts : (s.put S t).stmts S = some t := Function.update_self ..

theorem put_stmts_ne (h : S' ≠ S) : (s.put S t).stmts S' = s.stmts S' :=
  Function.update_of_ne h ..

@[simp] theorem put_put : (s.put S t').put S t = s.put S t := by
  simp only [put, Function.update_idem]

theorem put_eq_self (h : s.stmts S = some t) : s.put S t = s := by
  rw [put, ← h, Function.update_eq_self]

theorem kept_put : Kept s (s.put S t) S := fun _ hne ↦ ⟨put_stmts_ne hne, fun _ _ _ _ ↦ rfl⟩

theorem destroyChunk_put : (s.put S t').destroyChunk S t = s.destroyChunk S t := by
  unfold destroyChunk
  cases t.chunk with
  | none => exact put_put
  | some a =>
    simp only [put_put]
    rfl

theorem destroyChunk_stmts : (s.destroyChunk S t).stmts S = some { t with chunk := none } := by
  unfold destroyChunk
  split
  next h => rw [put_stmts, ← h]
  next => exact put_stmts

theorem destroyChunk_colAux : (s.destroyChunk S t).colAux = s.colAux := by
  unfold destroyChunk
  split <;> rfl

theorem resetResult_eq : s.resetResult S t =
    ({ s with colAux := s.colAux.release S }.destroyChunk S t).put S t.reset := by
  unfold resetResult destroyChunk
  cases ht : t.chunk with
  | none => simp [Stmt.clearConvertedRow, ht, Stmt.reset]
  | some a =>
    simp only [Stmt.clearConvertedRow, ht, Stmt.reset]
    simp [put]

theorem resetResult_stmts : (s.resetResult S t).stmts S = some t.reset := by
  rw [resetResult_eq, put_stmts]

theorem resetResult_owner : (s.resetResult S t).colAux.owner ≠ some S := by
  intro h
  rw [resetResult_eq] at h
  have h : (s.colAux.release S).owner = some S := by
    simpa [put, destroyChunk_colAux] using h
  exact (ColAuxCache.release_owner h).2 rfl

theorem resetResult_put : (s.put S t').resetResult S t = s.resetResult S t := by
  rw [resetResult_eq, resetResult_eq]
  exact congrArg (State.put · S t.reset)
    (destroyChunk_put (s := { s with colAux := s.colAux.release S }))

end State

open State

namespace Sound

/-- A statement may be stored if its chunk is its own, and if the auxiliary
content that it owns was built for it. -/
theorem put (h : Sound s)
    (hchunk : ∀ a, t.chunk = some a →
      t.hasResult ∧ ∃ object, s.memory a = some object ∧ object.fetchedFor = some (S, t.result))
    (haux : s.colAux.owner = some S → s.colAux.BuiltFor t) : Sound (s.put S t) where
  chunks S' t' a ht ha := by
    by_cases hne : S' = S
    · subst hne
      obtain rfl : t = t' := Option.some.inj (put_stmts.symm.trans ht)
      exact hchunk a ha
    · exact h.chunks S' t' a ((put_stmts_ne hne).symm.trans ht) ha
  cache := h.cache
  aux S' ho := by
    by_cases hne : S' = S
    · subst hne
      exact ⟨t, put_stmts, haux ho⟩
    · rw [put_stmts_ne hne]
      exact h.aux S' ho

/-- The chunk of another statement is at another address. -/
theorem chunk_ne (h : Sound s) {b : ChunkAddress} (hne : S' ≠ S) (ht : s.stmts S = some t)
    (ha : t.chunk = some a) (ht' : s.stmts S' = some t') (hb : t'.chunk = some b) : b ≠ a := by
  rintro rfl
  obtain ⟨-, object, hm, hf⟩ := h.chunks S t b ht ha
  obtain ⟨-, object', hm', hf'⟩ := h.chunks S' t' b ht' hb
  obtain rfl : object = object' := Option.some.inj (hm.symm.trans hm')
  rw [hf] at hf'
  exact hne (Prod.mk.inj (Option.some.inj hf')).1.symm

theorem builtFor (h : Sound s) (ht : s.stmts S = some t) (ho : s.colAux.owner = some S) :
    s.colAux.BuiltFor t := by
  obtain ⟨t', ht', hb⟩ := h.aux S ho
  obtain rfl : t = t' := Option.some.inj (ht.symm.trans ht')
  exact hb

theorem kept_destroyChunk (h : Sound s) (ht : s.stmts S = some t) :
    Kept s (s.destroyChunk S t) S := by
  unfold destroyChunk
  cases ha : t.chunk with
  | none => exact kept_put
  | some a =>
    intro S' hne
    refine ⟨put_stmts_ne hne, fun t' b ht' hb ↦ ?_⟩
    exact Function.update_of_ne (h.chunk_ne hne ht ha ht' hb) ..

theorem destroyChunk (h : Sound s) (ht : s.stmts S = some t) : Sound (s.destroyChunk S t) := by
  have hput : Sound (s.put S { t with chunk := none }) := by
    refine h.put (fun a ha ↦ by cases ha) fun ho ↦ ?_
    have hb : s.colAux.BuiltFor t := h.builtFor ht ho
    exact hb
  cases ha : t.chunk with
  | none =>
    have he : s.destroyChunk S t = s := by
      simp only [State.destroyChunk, ha]
      exact put_eq_self ht
    rwa [he]
  | some a =>
    have he : s.destroyChunk S t = { s.put S { t with chunk := none } with
        cache := s.cache.invalidate (some a)
        memory := Function.update s.memory a none } := by
      rw [State.destroyChunk, ha]
    rw [he]
    constructor
    · intro S' t' b ht' hb
      by_cases hne : S' = S
      · subst hne
        obtain rfl := Option.some.inj (put_stmts.symm.trans ht')
        cases hb
      · have hb' := h.chunk_ne hne ht ha ((put_stmts_ne hne).symm.trans ht') hb
        obtain ⟨hr, object, hm, hf⟩ := hput.chunks S' t' b ht' hb
        exact ⟨hr, object, (Function.update_of_ne hb' ..).trans hm, hf⟩
    · intro b hb
      obtain ⟨hc, hne⟩ := ChunkCache.invalidate_chunk hb
      simp only [hc] at hb ⊢
      simpa only [Function.update_of_ne hne] using h.cache b hb
    · exact hput.aux

theorem release (h : Sound s) : Sound { s with colAux := s.colAux.release S } where
  chunks := h.chunks
  cache := h.cache
  aux S' ho := by
    obtain ⟨he, -⟩ := ColAuxCache.release_owner ho
    simp only [he] at ho ⊢
    exact h.aux S' ho

theorem resetResult (h : Sound s) (ht : s.stmts S = some t) : Sound (s.resetResult S t) := by
  rw [resetResult_eq]
  refine (h.release.destroyChunk ht).put (fun a ha ↦ by cases ha) fun ho ↦ ?_
  rw [destroyChunk_colAux] at ho
  exact absurd rfl (ColAuxCache.release_owner ho).2

theorem kept_resetResult (h : Sound s) (ht : s.stmts S = some t) :
    Kept s (s.resetResult S t) S := by
  rw [resetResult_eq]
  exact (h.release.kept_destroyChunk ht).trans kept_put

/-- Loading the chunk of a statement into the cache. -/
theorem load (h : Sound s) (ht : s.stmts S = some t) (ha : t.chunk = some a) :
    Sound { s with cache := s.cache.load s.memory (some a) grows } where
  chunks := h.chunks
  cache b hb := by
    obtain ⟨hab, object, hm, hh⟩ := ChunkCache.load_holds hb
    obtain rfl := Option.some.inj hab
    obtain ⟨-, object', hm', hf⟩ := h.chunks S t a ht ha
    obtain rfl : object = object' := Option.some.inj (hm.symm.trans hm')
    exact ⟨object, hm, by rw [hf]; rfl, hh⟩
  aux := h.aux

end Sound

def Cells (s : State) (S : StmtAddress) (t t' : Stmt) : Prop :=
  (∃ values canonical, t' = { t with rowValues := values, rowCanonical := canonical }) ∧
    OwnRow s S t'

def Converts (s : State) (S : StmtAddress) (t : Stmt) (out : Stmt × List ColumnRead × Outcome) :
    Prop :=
  Cells s S t out.1 ∧ ∀ r ∈ out.2.1, r.stmt = S ∧ r.Own s t

/-- The auxiliary data that a statement finds is of its own result. -/
def FindsOwn (s : State) (S : StmtAddress) (t : Stmt) : Prop :=
  ∀ c, ∀ u ∈ s.colAux.find S c,
    u.1 = t.result ∧ ∃ type, t.columns[c]? = some type ∧ u.2 = type.aux true

theorem Sound.findsOwn (h : Sound s) (ht : s.stmts S = some t) : FindsOwn s S t := by
  intro c u hu
  obtain ⟨ho, hb⟩ := ColAuxCache.find_builtFor hu
  exact hb t (h.builtFor ht ho)

theorem findsOwn_enum (h : FindsOwn s S t) (type : Column) :
    ∀ u ∈ if type.type = .enum then s.colAux.find S c else none,
      u.1 = t.result ∧ ∃ type, t.columns[c]? = some type ∧ u.2 = type.aux true := by
  intro u hu
  split_ifs at hu
  · exact h c u hu
  · exact absurd hu (Option.not_mem_none u)

theorem ownCells_of_none {cells : List (Option ColumnRead)} (h : ∀ r ∈ cells, r = none) :
    OwnCells s S t cells := by
  intro c r hr
  cases h _ (List.mem_of_getElem? hr)

theorem OwnCells.set {cells : List (Option ColumnRead)} (h : OwnCells s S t cells)
    (hr : r.stmt = S ∧ r.column = c ∧ r.Own s t) : OwnCells s S t (cells.set c (some r)) := by
  intro i r' hr'
  rw [List.getElem?_set] at hr'
  split_ifs at hr' with hci
  · obtain rfl := Option.some.inj (Option.some.inj hr')
    exact hci ▸ hr
  · exact h i r' hr'

theorem ownRow_cleared {release : Bool} : OwnRow s S (t.clearConvertedRow release) := by
  cases release with
  | true => constructor <;> exact ownCells_of_none fun r hr ↦ absurd hr List.not_mem_nil
  | false =>
    constructor <;> apply ownCells_of_none <;> intro r hr <;>
      exact (List.mem_map.mp hr).choose_spec.2.symm

namespace Cells

theorem allocateRow (h : Cells s S t t') : Cells s S t t'.allocateRow := by
  obtain ⟨⟨values, canonical, rfl⟩, hrow⟩ := h
  unfold Stmt.allocateRow
  split_ifs with hnull
  · refine ⟨⟨_, _, rfl⟩, ?_, ?_⟩
    · exact ownCells_of_none fun r hr ↦ List.eq_of_mem_replicate hr
    · exact ownCells_of_none fun r hr ↦ List.eq_of_mem_replicate hr
  · exact ⟨⟨_, _, rfl⟩, hrow⟩

theorem setCanonical (h : Cells s S t t') (hr : r.stmt = S ∧ r.column = c ∧ r.Own s t) :
    Cells s S t (t'.setCanonical c r) := by
  obtain ⟨⟨values, canonical, rfl⟩, hvalues, hcanonical⟩ := h
  exact ⟨⟨_, _, rfl⟩, hvalues, hcanonical.set hr⟩

theorem setValue (h : Cells s S t t') (hr : r.stmt = S ∧ r.column = c ∧ r.Own s t) :
    Cells s S t (t'.setValue c r) := by
  obtain ⟨⟨values, canonical, rfl⟩, hvalues, hcanonical⟩ := h
  exact ⟨⟨_, _, rfl⟩, hvalues.set hr, hcanonical⟩

theorem directRead_own (h : Cells s S t t') (c : ℕ) {aux : Option (ℕ × ColAux)}
    (haux : ∀ u ∈ aux, u.1 = t.result ∧ ∃ type, t.columns[c]? = some type ∧ u.2 = type.aux true) :
    (s.directRead S t' c aux).stmt = S ∧ (s.directRead S t' c aux).column = c ∧
      (s.directRead S t' c aux).Own s t := by
  obtain ⟨⟨values, canonical, rfl⟩, -⟩ := h
  exact ⟨rfl, rfl, rfl, rfl, rfl, rfl, haux⟩

theorem converts_nil (h : Cells s S t t') {out : Outcome} : Converts s S t (t', [], out) :=
  ⟨h, fun _ hr ↦ absurd hr List.not_mem_nil⟩

theorem converts_single (h : Cells s S t t') {out : Outcome}
    (hr : r.stmt = S ∧ r.column = c ∧ r.Own s t) : Converts s S t (t', [r], out) := by
  refine ⟨h, fun r' hr' ↦ ?_⟩
  obtain rfl := List.mem_singleton.mp hr'
  exact ⟨hr.1, hr.2.2⟩

theorem nullCell (h : Cells s S t t') (hr : r.stmt = S ∧ r.column = c ∧ r.Own s t)
    (native : Bool) : Converts s S t (t'.nullCell c native r) := by
  refine Cells.converts_single ?_ hr
  split_ifs
  · exact (h.setCanonical hr).setValue hr
  · exact h.setCanonical hr

theorem convertCell (h : Cells s S t t') (hr : r.stmt = S ∧ r.column = c ∧ r.Own s t)
    (type : Column) (native : Bool) (o : Conversion) :
    Converts s S t (t'.convertCell c type native o r) := by
  have hcanonical : Cells s S t (if type.type ∈ canonicalTypes then t'.setCanonical c r else t') := by
    split
    · exact h.setCanonical hr
    · exact h
  unfold Stmt.convertCell
  split
  · exact (h.setCanonical hr).converts_single hr
  split
  · exact h.converts_single hr
  split
  · exact h.converts_single hr
  dsimp only
  generalize (if type.type ∈ canonicalTypes then t'.setCanonical c r else t') = t'' at hcanonical ⊢
  split
  · split
    · exact (hcanonical.setValue hr).converts_single hr
    · exact hcanonical.converts_single hr
  · exact hcanonical.converts_single hr

theorem convertColumn (h : Cells s S t t') (hfind : FindsOwn s S t) (type : Column)
    (o : Conversion) : Converts s S t (s.convertColumn S t' c type o) := by
  unfold State.convertColumn
  split
  · exact h.converts_nil
  cases if t'.rowNative ∧ ¬ o.scalarBinding then o.structured else some false with
  | none => exact h.converts_nil
  | some native =>
    dsimp only
    split
    · exact h.converts_nil
    split
    · apply h.allocateRow.nullCell
      exact h.directRead_own c fun u hu ↦ absurd hu (Option.not_mem_none u)
    · apply h.allocateRow.convertCell
      exact h.directRead_own c (findsOwn_enum hfind type)

theorem convertColumns (hfind : FindsOwn s S t) (o : ℕ → Conversion) (rest : List Column)
    (h : Cells s S t t') : Converts s S t (s.convertColumns S o c rest t') := by
  induction rest generalizing c t' with
  | nil => exact h.converts_nil
  | cons type rest ih =>
    have hc := h.convertColumn (c := c) hfind type (o c)
    unfold State.convertColumns
    split
    next t'' reads heq =>
      rw [heq] at hc
      have hrest := ih (c := c + 1) hc.1
      refine ⟨hrest.1, fun r hr ↦ ?_⟩
      obtain hr | hr := List.mem_append.mp hr
      · exact hc.2 r hr
      · exact hrest.2 r hr
    next t'' reads out _ heq =>
      rw [heq] at hc
      exact hc

end Cells

def Stmt.OnRow (t : Stmt) : Prop := t.hasResult → t.started → t.done = false → t.chunk.isSome

structure Good (s : State) (S : StmtAddress) (out : State × List ColumnRead) : Prop where
  sound : Sound out.1
  kept : Kept s out.1 S
  row : ∀ t, out.1.stmts S = some t → t.chunk.isSome → OwnRow out.1 S t
  cursor : ∀ t, out.1.stmts S = some t → t.OnRow
  reads : ∀ r ∈ out.2, r.stmt = S ∧ ∃ t, out.1.stmts S = some t ∧ t.chunk.isSome ∧ r.Own out.1 t

/-- A call that leaves the statement without a chunk reads nothing. -/
theorem Good.of_closed (hs : Sound s') (hk : Kept s s' S) (ht : s'.stmts S = some t)
    (hc : t.chunk = none) (hrow : t.OnRow) : Good s S (s', []) where
  sound := hs
  kept := hk
  row t' ht' hc' := by
    obtain rfl := Option.some.inj (ht.symm.trans ht')
    rw [hc] at hc'
    cases hc'
  cursor t' ht' := by
    obtain rfl := Option.some.inj (ht.symm.trans ht')
    exact hrow
  reads r hr := absurd hr List.not_mem_nil

theorem Good.trans {out : State × List ColumnRead} (hk : Kept s s' S) (h : Good s' S out) :
    Good s S out :=
  ⟨h.sound, hk.trans h.kept, h.row, h.cursor, h.reads⟩

def SameChunk (t t' : Stmt) : Prop :=
  t'.chunk = t.chunk ∧ t'.hasResult = t.hasResult ∧ t'.result = t.result ∧ t'.columns = t.columns

def SameRow (t t' : Stmt) : Prop := t'.cur = t.cur ∧ SameChunk t t'

theorem SameRow.own (h : SameRow t t') (hr : r.Own s t) : r.Own s t' := by
  obtain ⟨hcur, hchunk, -, hresult, hcolumns⟩ := h
  simpa only [ColumnRead.Own, State.getVector, hchunk, hcur, hresult, hcolumns] using hr

theorem Sound.put_same (h : Sound (s.put S t)) (hsame : SameChunk t t') : Sound (s.put S t') := by
  obtain ⟨hchunk, hhas, hresult, hcolumns⟩ := hsame
  have hput : (s.put S t).put S t' = s.put S t' := put_put
  rw [← hput]
  apply h.put
  · rw [hchunk, hhas, hresult]
    exact fun a ha ↦ h.chunks S t a put_stmts ha
  · intro ho
    have hb := h.builtFor put_stmts ho
    simpa only [ColAuxCache.BuiltFor, hresult, hcolumns] using hb

theorem Good.of_row (h : Sound (s.put S t)) (hsame : SameRow t t') (hchunk : t.chunk.isSome)
    (hrow : OwnRow s S t') (hreads : ∀ r ∈ reads, r.stmt = S ∧ r.Own s t) :
    Good s S (s.put S t', reads) where
  sound := h.put_same hsame.2
  kept := kept_put
  row t'' ht'' _ := by
    obtain rfl := Option.some.inj (put_stmts.symm.trans ht'')
    exact hrow
  cursor t'' ht'' _ _ _ := by
    obtain rfl := Option.some.inj (put_stmts.symm.trans ht'')
    rwa [hsame.2.1]
  reads r hr := by
    obtain ⟨hS, hown⟩ := hreads r hr
    refine ⟨hS, t', put_stmts, ?_, hsame.own hown⟩
    rwa [hsame.2.1]

theorem Sound.getVector_eq (h : Sound (s.put S t)) (ha : t.chunk = some a)
    (hcache : s.cache.chunk = some a) (hi : i < s.cache.ncols) :
    s.cache.vecs[i]? = s.getVector t i ∧
      s.cache.datas[i]? = (s.getVector t i).map Vector.data ∧
      s.cache.validities[i]? = (s.getVector t i).map Vector.validity := by
  obtain ⟨object, hm, -, hh⟩ := h.cache a hcache
  have hm : s.memory a = some object := hm
  have hv : s.getVector t i = object.getVector i := by
    simp [State.getVector, ha, hm]
  rw [hv]
  exact hh.2 i hi

theorem rowHasVariant_own (h : Sound (s.put S t)) (hchunk : t.chunk.isSome) (hit : ℕ → Bool)
    (cols : List ℕ) : ∀ r ∈ (s.rowHasVariant S t hit cols).1, r.stmt = S ∧ r.Own s t := by
  induction cols with
  | nil => exact fun r hr ↦ absurd hr List.not_mem_nil
  | cons c rest ih =>
    obtain ⟨a, ha⟩ := Option.isSome_iff_exists.mp hchunk
    have hvec : (if s.cache.chunk = t.chunk ∧ c < s.cache.ncols then s.cache.vecs[c]?
        else s.getVector t c) = s.getVector t c := by
      split_ifs with hc
      · exact (h.getVector_eq ha (hc.1.trans ha) hc.2).1
      · rfl
    have hown : ∀ r : ColumnRead, r = ⟨S, c, t.cur, s.getVector t c,
        (s.getVector t c).map Vector.data, (s.getVector t c).bind Vector.validity, none⟩ →
        r.stmt = S ∧ r.Own s t := by
      rintro r rfl
      exact ⟨rfl, rfl, rfl, rfl, rfl, fun u hu ↦ absurd hu (Option.not_mem_none u)⟩
    unfold State.rowHasVariant
    rw [hvec]
    dsimp only
    split
    · intro r hr
      exact hown r (List.mem_singleton.mp hr)
    · intro r hr
      obtain hr | hr := List.mem_cons.mp hr
      · exact hown r hr
      · exact ih r hr

theorem convertRow_good (v2 : Bool) (o : RowAnswers) (h : Sound (s.put S t))
    (hchunk : t.chunk.isSome) (hrow : OwnRow s S t) : Good s S (s.convertRow v2 S t o) := by
  have hprobed := rowHasVariant_own h hchunk o.hit t.variantCols
  have hcells : Cells s S t t := ⟨⟨_, _, rfl⟩, hrow⟩
  have hfind : FindsOwn s S t := h.findsOwn put_stmts
  have hconv := hcells.convertColumns hfind o.column t.columns (c := 0)
  unfold State.convertRow
  dsimp only
  split
  · exact Good.of_row h ⟨rfl, rfl, rfl, rfl, rfl⟩ hchunk ownRow_cleared hprobed
  generalize s.convertColumns S o.column 0 t.columns t = out at hconv ⊢
  obtain ⟨t', reads, outcome⟩ := out
  obtain ⟨⟨⟨values, canonical, rfl⟩, hrow'⟩, hreads⟩ := hconv
  have hall : ∀ r ∈ (s.rowHasVariant S t o.hit t.variantCols).1 ++ reads,
      r.stmt = S ∧ r.Own s t := by
    intro r hr
    obtain hr | hr := List.mem_append.mp hr
    · exact hprobed r hr
    · exact hreads r hr
  dsimp only
  split
  · exact Good.of_row h ⟨rfl, rfl, rfl, rfl, rfl⟩ hchunk ownRow_cleared hall
  · exact Good.of_row h ⟨rfl, rfl, rfl, rfl, rfl⟩ hchunk hrow' hall

/-- The statement already has its new chunk or its new row here. -/
theorem fetchedRow_good (v2 : Bool) (o : RowAnswers) (h : Sound (s.put S t))
    (hchunk : t.chunk.isSome) : Good s S (s.fetchedRow v2 S t o) := by
  have hclear : OwnRow s S (t.clearConvertedRow false) := ownRow_cleared
  refine convertRow_good v2 o (h.put_same ⟨rfl, rfl, rfl, rfl⟩) hchunk ?_
  exact hclear

theorem Sound.stopResult (h : Sound s) (ht : s.stmts S = some t) :
    Good s S (s.stopResult S t, []) := by
  have hr := h.resetResult ht
  have he : s.stopResult S t = (s.resetResult S t).put S { t.reset with done := true } := by
    simp only [State.stopResult, resetResult_stmts]
  rw [he]
  refine Good.of_closed ?_ ((h.kept_resetResult ht).trans kept_put) put_stmts rfl nofun
  exact hr.put (fun a ha ↦ by cases ha) fun ho ↦ absurd ho resetResult_owner

/-- Storing a statement without a chunk. -/
theorem Sound.put_closed (h : Sound s) (ht : s.stmts S = some t) (hc : t'.chunk = none)
    (hresult : t'.result = t.result) (hcolumns : t'.columns = t.columns) :
    Sound (s.put S t') := by
  refine h.put (fun a ha ↦ ?_) fun ho ↦ ?_
  · rw [hc] at ha
    cases ha
  · have hb := h.builtFor ht ho
    simpa only [ColAuxCache.BuiltFor, hresult, hcolumns] using hb

theorem stopResult_put : (s.put S t').stopResult S t = s.stopResult S t := by
  simp only [State.stopResult, resetResult_put]

theorem Sound.destroyed (h : Sound (s.put S t)) : Sound (s.destroyChunk S t) := by
  have hd := h.destroyChunk put_stmts
  rwa [destroyChunk_put] at hd

theorem Sound.kept_destroyed (h : Sound (s.put S t)) : Kept s (s.destroyChunk S t) S := by
  have hk := h.kept_destroyChunk put_stmts
  rw [destroyChunk_put] at hk
  exact kept_put.trans hk

/-- The engine has no further chunk. -/
theorem Sound.endResult (h : Sound (s.put S t)) :
    Good s S ((s.destroyChunk S t).put S { t with chunk := none, done := true }, []) := by
  refine Good.of_closed ?_ (h.kept_destroyed.trans kept_put) put_stmts rfl nofun
  exact h.destroyed.put_closed destroyChunk_stmts rfl rfl rfl

/-- A chunk from the engine, at a free address, stored in a statement and loaded. -/
theorem Sound.takeChunk (columns : List (ℕ × Option ℕ)) (grows : Bool) (t' : Stmt) (h : Sound s)
    (ht : s.stmts S = some t)
    (hfree : s.memory a = none) (hchunk : t'.chunk = some a) (hhas : t'.hasResult)
    (hresult : t'.result = t.result) (hcolumns : t'.columns = t.columns) :
    Sound (s.takeChunk S t' a columns grows) where
  chunks S' u b hu hb := by
    by_cases hne : S' = S
    · subst hne
      obtain rfl := Option.some.inj (put_stmts.symm.trans hu)
      obtain rfl := Option.some.inj (hchunk.symm.trans hb)
      exact ⟨hhas, _, Function.update_self .., rfl⟩
    · obtain ⟨hr, object', hm, hf'⟩ := h.chunks S' u b ((put_stmts_ne hne).symm.trans hu) hb
      have hba : b ≠ a := by
        rintro rfl
        rw [hfree] at hm
        cases hm
      exact ⟨hr, object', (Function.update_of_ne hba ..).trans hm, hf'⟩
  cache b hb := by
    obtain ⟨hab, object', hm, hh⟩ := ChunkCache.load_holds hb
    obtain rfl := Option.some.inj hab
    refine ⟨object', hm, ?_, hh⟩
    have hnew := Function.update_self a (some (⟨s.nextChunk, some (S, t'.result), columns⟩ : Chunk))
      s.memory
    rw [← Option.some.inj (hnew.symm.trans hm)]
    rfl
  aux S' ho := by
    by_cases hne : S' = S
    · subst hne
      refine ⟨t', put_stmts, ?_⟩
      have hb : s.colAux.BuiltFor t := h.builtFor ht ho
      have hb' : s.colAux.BuiltFor t' := by
        simpa only [ColAuxCache.BuiltFor, hresult, hcolumns] using hb
      exact hb'
    · obtain ⟨u, hu, hb⟩ := h.aux S' ho
      exact ⟨u, (put_stmts_ne hne).trans hu, hb⟩

theorem takeChunk_stmts (columns : List (ℕ × Option ℕ)) (grows : Bool) :
    (s.takeChunk S t a columns grows).stmts S = some t :=
  put_stmts

theorem Sound.kept_takeChunk (columns : List (ℕ × Option ℕ)) (grows : Bool) (t : Stmt)
    (h : Sound s) (hfree : s.memory a = none) : Kept s (s.takeChunk S t a columns grows) S := by
  intro S' hne
  refine ⟨put_stmts_ne hne, fun u b hu hb ↦ Function.update_of_ne ?_ ..⟩
  rintro rfl
  obtain ⟨-, object, hm, -⟩ := h.chunks S' u b hu hb
  rw [hfree] at hm
  cases hm

theorem fetchLoop_good (v2 : Bool) (o : RowAnswers) (pulls : List Pull) (h : Sound (s.put S t))
    (hhas : t.hasResult) : Good s S (State.fetchLoop v2 S o pulls s t) := by
  induction pulls generalizing s t with
  | nil => exact h.endResult
  | cons pull rest ih =>
    cases pull with
    | refused =>
      have hstop := (h.stopResult put_stmts).trans kept_put
      rwa [stopResult_put] at hstop
    | ended => exact h.endResult
    | failed => exact (h.destroyed.stopResult destroyChunk_stmts).trans h.kept_destroyed
    | bailout =>
      refine Good.of_closed ?_ (h.kept_destroyed.trans kept_put) put_stmts rfl nofun
      exact h.destroyed.put_closed destroyChunk_stmts rfl rfl rfl
    | chunk a columns size grows =>
      have hd := h.destroyed
      have hk := h.kept_destroyed
      have hstmts : (s.destroyChunk S t).stmts S = some { t with chunk := none } :=
        destroyChunk_stmts
      unfold State.fetchLoop
      dsimp only
      generalize s.destroyChunk S t = s₁ at hd hk hstmts ⊢
      cases hfree : s₁.memory a with
      | some _ =>
        rw [← put_eq_self hstmts] at hd
        exact (ih hd hhas).trans hk
      | none =>
        dsimp only
        generalize ht' : ({ t with chunk := some a, chunkSize := size, cur := 0 } : Stmt) = t'
        have hk' := hk.trans (hd.kept_takeChunk columns grows t' hfree)
        have htake : Sound (s₁.takeChunk S t' a columns grows) := by
          subst ht'
          exact hd.takeChunk columns grows _ hstmts hfree rfl hhas rfl rfl
        rw [← put_eq_self (takeChunk_stmts columns grows)] at htake
        split
        · exact (fetchedRow_good v2 o htake (ht' ▸ rfl)).trans hk'
        · exact (ih htake (ht' ▸ hhas)).trans hk'

structure Invariant (s : State) : Prop where
  sound : Sound s
  row : ∀ S t, s.stmts S = some t → t.chunk.isSome → OwnRow s S t
  cursor : ∀ S t, s.stmts S = some t → t.OnRow

theorem OwnRow.congr (h : OwnRow s S t) (hm : ∀ a, t.chunk = some a → s'.memory a = s.memory a) :
    OwnRow s' S t := by
  have hv : ∀ i, s'.getVector t i = s.getVector t i := by
    intro i
    unfold State.getVector
    cases ha : t.chunk with
    | none => rfl
    | some a => simp only [Option.bind_some, hm a ha]
  simpa only [OwnRow, OwnCells, ColumnRead.Own, hv] using h

namespace Invariant

theorem initial : Invariant .initial where
  sound :=
    { chunks _ _ _ h := by cases h
      cache _ h := by cases h
      aux _ h := by cases h }
  row _ _ h := by cases h
  cursor _ _ h := by cases h

theorem good_refl (h : Invariant s) : Good s S (s, []) where
  sound := h.sound
  kept := fun _ _ ↦ ⟨rfl, fun _ _ _ _ ↦ rfl⟩
  row := h.row S
  cursor := h.cursor S
  reads _ hr := absurd hr List.not_mem_nil

theorem of_good {out : State × List ColumnRead} (h : Invariant s) (hg : Good s S out) :
    Invariant out.1 where
  sound := hg.sound
  row S' t ht hc := by
    by_cases hne : S' = S
    · subst hne
      exact hg.row t ht hc
    · obtain ⟨hstmts, hm⟩ := hg.kept S' hne
      have ht' := hstmts.symm.trans ht
      exact (h.row S' t ht' hc).congr fun a ha ↦ hm t a ht' ha
  cursor S' t ht := by
    by_cases hne : S' = S
    · subst hne
      exact hg.cursor t ht
    · exact h.cursor S' t ((hg.kept S' hne).1.symm.trans ht)

theorem fetch_good (h : Invariant s) (ht : s.stmts S = some t) (v2 forward : Bool)
    (pulls : List Pull) (o : RowAnswers) : Good s S (s.fetch v2 S t forward pulls o) := by
  have hput : Sound (s.put S t) := by
    rw [put_eq_self ht]
    exact h.sound
  unfold State.fetch
  split
  · exact h.good_refl
  next hopen =>
  push Not at hopen
  obtain ⟨hhas, hdone, -⟩ := hopen
  split
  · exact fetchLoop_good v2 o pulls (hput.put_same ⟨rfl, rfl, rfl, rfl⟩) hhas
  next hstarted =>
  split
  · have hchunk := h.cursor S t ht hhas (by simpa using hstarted) (by simpa using hdone)
    exact fetchedRow_good v2 o (hput.put_same ⟨rfl, rfl, rfl, rfl⟩) hchunk
  · exact fetchLoop_good v2 o pulls (hput.put_same ⟨rfl, rfl, rfl, rfl⟩) hhas

theorem convertedCell_own (h : OwnRow s S t) {o : Reading} (hr : t.convertedCell c o = some r) :
    r.stmt = S ∧ r.column = c ∧ r.Own s t := by
  unfold Stmt.convertedCell at hr
  split at hr
  · exact h.1 c r (Option.join_eq_some_iff.mp hr)
  · exact h.2 c r (Option.join_eq_some_iff.mp hr)

theorem decode_own (hfind : FindsOwn s S t) (o : Reading) :
    (s.decode S t c o (s.getVector t c) ((s.getVector t c).map Vector.data)
      ((s.getVector t c).bind Vector.validity)).Own s t := by
  refine ⟨rfl, rfl, rfl, rfl, fun u hu ↦ ?_⟩
  simp only [State.decode] at hu
  split_ifs at hu
  · exact absurd hu (Option.not_mem_none u)
  · exact hfind c u hu

/-- The cache may be loaded with the chunk of any statement. -/
theorem load (h : Invariant s) (ht : s.stmts S = some t) (hchunk : t.chunk.isSome)
    (grows : Bool) : Invariant { s with cache := s.cache.load s.memory t.chunk grows } where
  sound := by
    obtain ⟨a, ha⟩ := Option.isSome_iff_exists.mp hchunk
    rw [ha]
    exact h.sound.load ht ha
  row := h.row
  cursor := h.cursor

theorem readColumn_own (h : Invariant s) (ht : s.stmts S = some t) (hchunk : t.chunk.isSome)
    (o : Reading) : ∀ r ∈ s.readColumn S t c o, r.stmt = S ∧ r.column = c ∧ r.Own s t := by
  have hput : Sound (s.put S t) := by
    rw [put_eq_self ht]
    exact h.sound
  have hown := decode_own (c := c) (h.sound.findsOwn ht) o
  obtain ⟨a, ha⟩ := Option.isSome_iff_exists.mp hchunk
  intro r hr
  unfold State.readColumn at hr
  split at hr
  next hcache =>
    split at hr
    · exact absurd hr List.not_mem_nil
    next hcol =>
    obtain ⟨hvec, hdata, hvalidity⟩ := hput.getVector_eq ha (hcache.trans ha) (not_le.mp hcol)
    rw [hvec, hdata, hvalidity, ← Option.bind_id_eq_join, Option.bind_map] at hr
    obtain rfl := List.mem_singleton.mp hr
    exact ⟨rfl, rfl, hown⟩
  next =>
    cases hv : s.getVector t c with
    | none =>
      rw [hv] at hr
      exact absurd hr List.not_mem_nil
    | some v =>
      rw [hv] at hr
      obtain rfl := List.mem_singleton.mp hr
      rw [hv] at hown
      exact ⟨rfl, rfl, hown⟩

theorem getCol_good (h : Invariant s) (ht : s.stmts S = some t) (c : ℕ) (o : Reading) :
    Good s S (s.getCol S t c o) ∧ ∀ r ∈ (s.getCol S t c o).2, r.column = c := by
  unfold State.getCol
  split
  · exact ⟨h.good_refl, fun r hr ↦ absurd hr List.not_mem_nil⟩
  next hopen =>
  push Not at hopen
  have hchunk := Option.isSome_iff_ne_none.mpr hopen.1
  split
  next r hr =>
    have hown := convertedCell_own (h.row S t ht hchunk) hr
    refine ⟨⟨h.sound, h.good_refl.kept, h.row S, h.cursor S, fun r' hr' ↦ ?_⟩, fun r' hr' ↦ ?_⟩
    · obtain rfl := List.mem_singleton.mp hr'
      exact ⟨hown.1, t, ht, hchunk, hown.2.2⟩
    · obtain rfl := List.mem_singleton.mp hr'
      exact hown.2.1
  next =>
    have hloaded : ∀ s', s' = (if s.cache.chunk ≠ t.chunk then
        { s with cache := s.cache.load s.memory t.chunk o.grows } else s) →
        Invariant s' ∧ s'.stmts = s.stmts ∧ s'.memory = s.memory := by
      rintro s' rfl
      split
      · exact ⟨h.load ht hchunk o.grows, rfl, rfl⟩
      · exact ⟨h, rfl, rfl⟩
    dsimp only
    generalize hs' : (if s.cache.chunk ≠ t.chunk then
        { s with cache := s.cache.load s.memory t.chunk o.grows } else s) = s'
    obtain ⟨h', hstmts, hmemory⟩ := hloaded s' hs'.symm
    have ht' : s'.stmts S = some t := by rw [hstmts, ht]
    have hown := h'.readColumn_own (c := c) ht' hchunk o
    refine ⟨⟨h'.sound, fun S' _ ↦ ⟨by rw [hstmts], fun _ _ _ _ ↦ by rw [hmemory]⟩, h'.row S,
      h'.cursor S, fun r hr ↦ ?_⟩, fun r hr ↦ (hown r hr).2.1⟩
    obtain ⟨hS, -, hr⟩ := hown r hr
    exact ⟨hS, t, ht', hchunk, hr⟩

theorem resetResult_good (h : Sound s) (ht : s.stmts S = some t) :
    Good s S (s.resetResult S t, []) :=
  Good.of_closed (h.resetResult ht) (h.kept_resetResult ht) resetResult_stmts rfl nofun

/-- A reset statement that gets a new result and no chunk yet. -/
theorem put_result (h : Sound s) (ho : s.colAux.owner ≠ some S) (hc : t.chunk = none) :
    Sound (s.put S t) := by
  refine h.put (fun a ha ↦ ?_) fun ho' ↦ absurd ho' ho
  rw [hc] at ha
  cases ha

theorem cache_sound {copied : ℕ → Bool} (h : Sound s) (ht : s.stmts S = some t) :
    Sound { s with colAux := s.colAux.cache S t.result t.columns grows copied } where
  chunks := h.chunks
  cache := h.cache
  aux S' ho := by
    obtain ⟨rfl, hb⟩ := ColAuxCache.cache_owner ho
    exact ⟨t, ht, hb⟩

theorem takeResult_good (h : Sound s) (ht : s.stmts S = some t.reset)
    (ho : s.colAux.owner ≠ some S) (o : Execution) :
    Good s S (s.takeResult S t.reset o, []) := by
  have hnext : Sound { s with nextResult := s.nextResult + 1 } := ⟨h.chunks, h.cache, h.aux⟩
  have hput : ∀ t' : Stmt, t'.chunk = none →
      Sound ({ s with nextResult := s.nextResult + 1 }.put S t') :=
    fun t' hc ↦ put_result hnext ho hc
  have hk : ∀ t' : Stmt, Kept s ({ s with nextResult := s.nextResult + 1 }.put S t') S :=
    fun t' S' hne ↦ ⟨put_stmts_ne hne, fun _ _ _ _ ↦ rfl⟩
  cases o with
  | failed => exact Good.of_closed h (fun _ _ ↦ ⟨rfl, fun _ _ _ _ ↦ rfl⟩) ht rfl nofun
  | discarded columns =>
    have hg := (resetResult_good (hput { t.reset with
      hasResult := true, result := s.nextResult, columns := columns } rfl) put_stmts).trans (hk _)
    rwa [resetResult_put] at hg
  | bailout columns => exact Good.of_closed (hput _ rfl) (hk _) put_stmts rfl nofun
  | executed columns probed grows copied =>
    simp only [State.takeResult]
    split
    · exact Good.of_closed (hput _ rfl) (hk _) put_stmts rfl nofun
    · refine Good.of_closed ?_ (hk _) put_stmts rfl nofun
      exact cache_sound (hput { t.reset with
        hasResult := true, result := s.nextResult, columns := columns, variantCols := probed } rfl)
        put_stmts

theorem execute_good (h : Invariant s) (ht : s.stmts S = some t) (o : Execution) :
    Good s S (s.execute S t o, []) := by
  have hg := resetResult_good h.sound ht
  have hstmts : (s.resetResult S t).stmts S = some t.reset := resetResult_stmts
  have he : s.execute S t o = (s.resetResult S t).takeResult S t.reset o := by
    simp only [State.execute, hstmts]
  rw [he]
  exact (takeResult_good hg.sound hstmts resetResult_owner o).trans hg.kept

theorem prepare (h : Invariant s) (hfree : s.stmts S = none) : Invariant (s.put S .fresh) where
  sound := by
    refine h.sound.put (fun a ha ↦ by cases ha) fun ho ↦ ?_
    obtain ⟨t, ht, -⟩ := h.sound.aux S ho
    rw [hfree] at ht
    cases ht
  row S' t ht hc := by
    by_cases hne : S' = S
    · subst hne
      obtain rfl := Option.some.inj (put_stmts.symm.trans ht)
      cases hc
    · exact h.row S' t ((put_stmts_ne hne).symm.trans ht) hc
  cursor S' t ht := by
    by_cases hne : S' = S
    · subst hne
      obtain rfl := Option.some.inj (put_stmts.symm.trans ht)
      exact nofun
    · exact h.cursor S' t ((put_stmts_ne hne).symm.trans ht)

theorem setNativeStructures (h : Invariant s) (ht : s.stmts S = some t) (enabled : Bool) :
    Invariant (s.put S { t with nativeStructures := enabled }) where
  sound := by
    have hput : Sound (s.put S t) := by
      rw [put_eq_self ht]
      exact h.sound
    exact hput.put_same ⟨rfl, rfl, rfl, rfl⟩
  row S' t' ht' hc := by
    by_cases hne : S' = S
    · subst hne
      obtain rfl := Option.some.inj (put_stmts.symm.trans ht')
      have hrow := h.row S' t ht hc
      exact hrow
    · exact h.row S' t' ((put_stmts_ne hne).symm.trans ht') hc
  cursor S' t' ht' := by
    by_cases hne : S' = S
    · subst hne
      obtain rfl := Option.some.inj (put_stmts.symm.trans ht')
      have hrow := h.cursor S' t ht
      exact hrow
    · exact h.cursor S' t' ((put_stmts_ne hne).symm.trans ht')

/-- A statement that has been reset is freed. -/
theorem destroy (h : Invariant s) (ht : s.stmts S = some t) :
    Invariant { s.resetResult S t with
      stmts := Function.update (s.resetResult S t).stmts S none } := by
  have hreset := h.of_good (resetResult_good h.sound ht)
  have ho : (s.resetResult S t).colAux.owner ≠ some S := resetResult_owner
  generalize s.resetResult S t = s₁ at hreset ho ⊢
  have hlive : ∀ S' u, Function.update s₁.stmts S none S' = some u →
      S' ≠ S ∧ s₁.stmts S' = some u := by
    intro S' u hu
    by_cases hne : S' = S
    · rw [hne, Function.update_self] at hu
      cases hu
    · exact ⟨hne, (Function.update_of_ne hne ..).symm.trans hu⟩
  constructor
  · constructor
    · exact fun S' u a hu ha ↦ hreset.sound.chunks S' u a (hlive S' u hu).2 ha
    · exact hreset.sound.cache
    · intro S' ho'
      obtain ⟨u, hu, hb⟩ := hreset.sound.aux S' ho'
      have hne : S' ≠ S := by
        rintro rfl
        exact ho ho'
      exact ⟨u, (Function.update_of_ne hne ..).trans hu, hb⟩
  · exact fun S' u hu hc ↦ hreset.row S' u (hlive S' u hu).2 hc
  · exact fun S' u hu ↦ hreset.cursor S' u (hlive S' u hu).2

theorem shutdown (h : Invariant s) : Invariant { s with cache := .empty, colAux := .empty } where
  sound :=
    { chunks := h.sound.chunks
      cache _ hc := by cases hc
      aux _ ho := by cases ho }
  row := h.row
  cursor := h.cursor

/-- The engine changes its memory where no statement has a chunk. -/
theorem set_memory {new : Option Chunk} {next : ℕ} (h : Invariant s)
    (hfree : ∀ object, s.memory a = some object → object.fetchedFor = none) :
    Invariant { s with memory := Function.update s.memory a new, nextChunk := next } := by
  have hne : ∀ b object, s.memory b = some object → object.fetchedFor.isSome →
      Function.update s.memory a new b = some object := by
    intro b object hm hf
    rw [← hm]
    apply Function.update_of_ne
    rintro rfl
    rw [hfree object hm] at hf
    cases hf
  have hchunks : ∀ S t b, s.stmts S = some t → t.chunk = some b → ∃ object,
      s.memory b = some object ∧ object.fetchedFor = some (S, t.result) ∧
        Function.update s.memory a new b = some object := by
    intro S t b ht hb
    obtain ⟨-, object, hm, hf⟩ := h.sound.chunks S t b ht hb
    exact ⟨object, hm, hf, hne b object hm (by rw [hf]; rfl)⟩
  constructor
  · constructor
    · intro S t b ht hb
      obtain ⟨object, -, hf, hm⟩ := hchunks S t b ht hb
      exact ⟨(h.sound.chunks S t b ht hb).1, object, hm, hf⟩
    · intro b hb
      obtain ⟨object, hm, hf, hh⟩ := h.sound.cache b hb
      exact ⟨object, hne b object hm hf, hf, hh⟩
    · exact h.sound.aux
  · intro S t ht hc
    refine (h.row S t ht hc).congr fun b hb ↦ ?_
    obtain ⟨object, hm, -, hm'⟩ := hchunks S t b ht hb
    exact hm'.trans hm.symm
  · exact h.cursor

end Invariant

/-- The reads that a call may make: those of its statement, and for a column
access those of its column. -/
def Event.Reads (r : ColumnRead) : Event → Prop
  | .fetch S _ _ _ => r.stmt = S
  | .getCol S colno _ => r.stmt = S ∧ r.column = colno
  | _ => False

/-- A read through what its statement has now: the current row, the vector of the
current chunk, which is alive and was fetched for the current result, and, if
it consults any, the auxiliary data that the current result's column gives. -/
def ColumnRead.Current (r : ColumnRead) (s : State) : Prop :=
  ∃ t a object, s.stmts r.stmt = some t ∧ t.hasResult ∧ t.chunk = some a ∧
    s.memory a = some object ∧ object.fetchedFor = some (r.stmt, t.result) ∧
    r.row = t.cur ∧ r.vec = object.getVector r.column ∧ r.data = r.vec.map Vector.data ∧
    r.validity = r.vec.bind Vector.validity ∧
    ∀ u ∈ r.aux, u.1 = t.result ∧ ∃ type, t.columns[r.column]? = some type ∧ u.2 = type.aux true

theorem Good.current {out : State × List ColumnRead} (h : Good s S out) (hr : r ∈ out.2) :
    r.stmt = S ∧ r.Current out.1 := by
  obtain ⟨rfl, t, ht, hchunk, hrow, hvec, hdata, hvalidity, haux⟩ := h.reads r hr
  obtain ⟨a, ha⟩ := Option.isSome_iff_exists.mp hchunk
  obtain ⟨hhas, object, hm, hf⟩ := h.sound.chunks r.stmt t a ht ha
  refine ⟨rfl, t, a, object, ht, hhas, ha, hm, hf, hrow, ?_, hdata, hvalidity, haux⟩
  rw [hvec]
  simp [State.getVector, ha, hm]

/-- What one call keeps, and what it reads. -/
theorem Invariant.step (h : Invariant s) (v2 : Bool) (e : Event) :
    Invariant (s.step v2 e).1 ∧
      ∀ r ∈ (s.step v2 e).2, e.Reads r ∧ r.Current (s.step v2 e).1 := by
  have hon : ∀ S (f : Stmt → State × List ColumnRead),
      (∀ t, s.stmts S = some t → Invariant (f t).1 ∧ ∀ r ∈ (f t).2, e.Reads r ∧ r.Current (f t).1) →
      Invariant (s.on S f).1 ∧ ∀ r ∈ (s.on S f).2, e.Reads r ∧ r.Current (s.on S f).1 := by
    intro S f hf
    unfold State.on
    split
    · exact ⟨h, fun r hr ↦ absurd hr List.not_mem_nil⟩
    next t ht => exact hf t ht
  cases e with
  | prepare S =>
    simp only [State.step]
    split
    next hfree => exact ⟨h.prepare hfree, fun r hr ↦ absurd hr List.not_mem_nil⟩
    next => exact ⟨h, fun r hr ↦ absurd hr List.not_mem_nil⟩
  | setNativeStructures S enabled =>
    exact hon S _ fun t ht ↦
      ⟨h.setNativeStructures ht enabled, fun r hr ↦ absurd hr List.not_mem_nil⟩
  | execute S o =>
    exact hon S _ fun t ht ↦
      ⟨h.of_good (h.execute_good ht o), fun r hr ↦ absurd hr List.not_mem_nil⟩
  | fetch S forward pulls o =>
    refine hon S _ fun t ht ↦ ?_
    have hg := h.fetch_good ht v2 forward pulls o
    exact ⟨h.of_good hg, fun r hr ↦ hg.current hr⟩
  | getCol S colno o =>
    refine hon S _ fun t ht ↦ ?_
    obtain ⟨hg, hcol⟩ := h.getCol_good ht colno o
    refine ⟨h.of_good hg, fun r hr ↦ ?_⟩
    obtain ⟨hS, hcurrent⟩ := hg.current hr
    exact ⟨⟨hS, hcol r hr⟩, hcurrent⟩
  | bindFailure S =>
    exact hon S _ fun t ht ↦
      ⟨h.of_good (resetResult_good h.sound ht), fun r hr ↦ absurd hr List.not_mem_nil⟩
  | closeCursor S =>
    exact hon S _ fun t ht ↦
      ⟨h.of_good (resetResult_good h.sound ht), fun r hr ↦ absurd hr List.not_mem_nil⟩
  | destroy S =>
    exact hon S _ fun t ht ↦ ⟨h.destroy ht, fun r hr ↦ absurd hr List.not_mem_nil⟩
  | shutdown => exact ⟨h.shutdown, fun r hr ↦ absurd hr List.not_mem_nil⟩
  | allocate a columns =>
    simp only [State.step]
    split
    next hfree =>
      refine ⟨h.set_memory fun object hm ↦ ?_, fun r hr ↦ absurd hr List.not_mem_nil⟩
      rw [hfree] at hm
      cases hm
    next => exact ⟨h, fun r hr ↦ absurd hr List.not_mem_nil⟩
  | deallocate a =>
    simp only [State.step]
    split
    next serial columns hm =>
      refine ⟨h.set_memory fun object hm' ↦ ?_, fun r hr ↦ absurd hr List.not_mem_nil⟩
      rw [← Option.some.inj (hm.symm.trans hm')]
    next => exact ⟨h, fun r hr ↦ absurd hr List.not_mem_nil⟩

def State.after (v2 : Bool) (es : List Event) : State :=
  Runs.run (fun (s : State) e ↦ (s.step v2 e).1) State.initial es

theorem invariant_after (v2 : Bool) (es : List Event) : Invariant (State.after v2 es) := by
  apply Runs.invariant (I := Invariant)
  · exact fun s e h ↦ (h.step v2 e).1
  · exact Invariant.initial

/-- In every run of calls on any number of statements that share the two caches,
with addresses given out again at will and caches that cannot grow, a column
read goes through its own statement's current chunk and result. -/
theorem columnReads_run (v2 : Bool) (es : List Event) (e : Event) :
    ∀ r ∈ ((State.after v2 es).step v2 e).2,
      e.Reads r ∧ r.Current ((State.after v2 es).step v2 e).1 :=
  ((invariant_after v2 es).step v2 e).2

def firstRow : List Event :=
  [.prepare 0,
    .execute 0 (.executed [⟨.integer, 0, 0, .other 0, .other 0, []⟩] [] true fun _ ↦ true),
    .fetch 0 true [.chunk 7 [(1, none)] 1 true]
      ⟨false, fun _ ↦ false, fun _ ↦ ⟨false, false, none, false, false, false, false, false, false⟩,
        false⟩]

def firstRead : ColumnRead := ⟨0, 0, 0, some ⟨0, 0, 1, none⟩, some 1, none, none⟩

theorem columnReads_firstRow :
    (Event.getCol 0 0 ⟨false, false, true, false⟩).Reads firstRead ∧
      firstRead.Current
        ((State.after false firstRow).step false (.getCol 0 0 ⟨false, false, true, false⟩)).1 := by
  have hread : ((State.after false firstRow).step false
      (.getCol 0 0 ⟨false, false, true, false⟩)).2 = [firstRead] := rfl
  apply columnReads_run
  rw [hread]
  exact List.mem_singleton_self firstRead

end PdoDuckdb.Statement
