import PdoDuckdb.Appenders.Lifecycle
import PdoDuckdb.Library.Runs
import Mathlib.Data.List.Nodup

namespace PdoDuckdb.Appenders

open Library

variable {s s' s'' : State} {id k : AppenderId} {calls calls' : List Called} {r : Row}
  {buffer : List Row}

def finalCalls (id : AppenderId) : List Called := [⟨id, .clear, []⟩, ⟨id, .destroy, []⟩]

/-- What an operation does to one appender: its native calls, the rows they
write out of its buffer, and that the other appenders are left alone. -/
structure Moves (s : State) (id : AppenderId) (calls : List Called) (s' : State) : Prop where
  trace : s'.trace = s.trace ++ calls
  mine : ∀ c ∈ calls, c.appender = id
  other : ∀ k, k ≠ id → s'.appenders k = s.appenders k
  next : s.next ≤ s'.next
  rows : (calls.flatMap Called.wrote ++ s'.buffered id).Sublist
    (s.buffered id ++ if s.next < s'.next then [s.next] else [])
  stays : s.dead id → s'.dead id
  silent : s.dead id → calls = [] ∧ (s'.opened id → s.opened id) ∨
    calls = finalCalls id ∧ s.opened id ∧ ¬ s'.opened id
  links : ∀ k, k ≠ id → k ∈ s.live → k ∈ s'.live
  linked : (s.opened id → id ∈ s.live) → s'.opened id → id ∈ s'.live

inductive Chain : State → List Called → State → Prop
  | nil (s : State) : Chain s [] s
  | cons {s s' s'' : State} {id : AppenderId} {calls calls' : List Called} :
      Moves s id calls s' → Chain s' calls' s'' → Chain s (calls ++ calls') s''

theorem Chain.one (h : Moves s id calls s') : Chain s calls s' := by
  have hc := Chain.cons h (.nil s')
  rwa [List.append_nil] at hc

theorem Chain.trans (h : Chain s calls s') (h' : Chain s' calls' s'') :
    Chain s (calls ++ calls') s'' := by
  induction h with
  | nil => exact h'
  | cons hm _ ih =>
    rw [List.append_assoc]
    exact .cons hm (ih h')

theorem Moves.refl (s : State) (id : AppenderId) : Moves s id [] s where
  trace := (List.append_nil _).symm
  mine := by simp
  other := fun _ _ ↦ rfl
  next := Nat.le_refl _
  rows := by simp
  stays := fun h ↦ h
  silent := fun _ ↦ .inl ⟨rfl, fun h ↦ h⟩
  links := fun _ _ h ↦ h
  linked := fun h ↦ h

structure Invariant (s : State) : Prop where
  log_nodup : s.log.Nodup
  log_lt : ∀ r ∈ s.log, r < s.next
  nodup : ∀ id, (s.buffered id).Nodup
  lt : ∀ id, ∀ r ∈ s.buffered id, r < s.next
  unwritten : ∀ id, ∀ r ∈ s.buffered id, r ∉ s.log
  apart : ∀ id k, id ≠ k → ∀ r ∈ s.buffered id, r ∉ s.buffered k
  linked : ∀ id, s.opened id → id ∈ s.live

theorem Invariant.initial : Invariant State.initial := by
  refine ⟨List.nodup_nil, ?_, ?_, ?_, ?_, ?_, ?_⟩
  all_goals simp [State.initial, State.log, State.buffered, State.opened]

namespace Moves

theorem log_eq (h : Moves s id calls s') : s'.log = s.log ++ calls.flatMap Called.wrote := by
  rw [State.log, h.trace, List.flatMap_append]
  rfl

theorem buffered_other (h : Moves s id calls s') (hk : k ≠ id) : s'.buffered k = s.buffered k := by
  rw [State.buffered, h.other k hk, State.buffered]

/-- A row written or kept was buffered, or is the new one. -/
theorem mem_rows (h : Moves s id calls s')
    (hr : r ∈ calls.flatMap Called.wrote ∨ r ∈ s'.buffered id) :
    r ∈ s.buffered id ∨ r = s.next ∧ r < s'.next := by
  have hmem := h.rows.subset (List.mem_append.mpr hr)
  rcases List.mem_append.mp hmem with hmem | hmem
  · exact .inl hmem
  · right
    split_ifs at hmem with hlt
    · rw [List.mem_singleton] at hmem
      exact ⟨hmem, hmem ▸ hlt⟩
    · cases hmem

theorem invariant (h : Moves s id calls s') (hs : Invariant s) : Invariant s' := by
  have hold : ∀ r ∈ s.log, r ∉ s.buffered id ∧ r ≠ s.next := fun r hr ↦
    ⟨fun hb ↦ hs.unwritten id r hb hr, Nat.ne_of_lt (hs.log_lt r hr)⟩
  have hnodup : (calls.flatMap Called.wrote ++ s'.buffered id).Nodup := by
    refine List.Nodup.sublist h.rows (List.nodup_append.mpr ⟨hs.nodup id, ?_, ?_⟩)
    · split_ifs
      exacts [List.nodup_singleton _, List.nodup_nil]
    · intro a ha b hb hab
      split_ifs at hb with hlt
      · rw [List.mem_singleton] at hb
        exact absurd (hs.lt id a ha) (by rw [hab, hb]; exact Nat.lt_irrefl _)
      · cases hb
  obtain ⟨hwrote, hleft, hdisjoint⟩ := List.nodup_append.mp hnodup
  have hnew {r : Row} (hr : r ∈ calls.flatMap Called.wrote ∨ r ∈ s'.buffered id) :
      r < s'.next ∧ r ∉ s.log := by
    rcases h.mem_rows hr with hb | ⟨hb, hlt⟩
    · exact ⟨Nat.lt_of_lt_of_le (hs.lt id r hb) h.next, fun hlog ↦ (hold r hlog).1 hb⟩
    · exact ⟨hlt, fun hlog ↦ (hold r hlog).2 hb⟩
  refine ⟨?_, ?_, fun k ↦ ?_, fun k r hr ↦ ?_, fun k r hr ↦ ?_, ?_, fun k hk ↦ ?_⟩
  · rw [h.log_eq, List.nodup_append]
    refine ⟨hs.log_nodup, hwrote, fun a ha b hb hab ↦ ?_⟩
    exact (hnew (.inl hb)).2 (hab ▸ ha)
  · intro r hr
    rw [h.log_eq] at hr
    rcases List.mem_append.mp hr with hr | hr
    · exact Nat.lt_of_lt_of_le (hs.log_lt r hr) h.next
    · exact (hnew (.inl hr)).1
  · by_cases hk : k = id
    · rw [hk]
      exact hleft
    · rw [h.buffered_other hk]
      exact hs.nodup k
  · by_cases hk : k = id
    · exact (hnew (.inr (hk ▸ hr))).1
    · rw [h.buffered_other hk] at hr
      exact Nat.lt_of_lt_of_le (hs.lt k r hr) h.next
  · rw [h.log_eq, List.mem_append, not_or]
    by_cases hk : k = id
    · subst hk
      exact ⟨(hnew (.inr hr)).2, fun hw ↦ hdisjoint r hw r hr rfl⟩
    · rw [h.buffered_other hk] at hr
      refine ⟨hs.unwritten k r hr, fun hw ↦ ?_⟩
      rcases h.mem_rows (.inl hw) with hb | ⟨hb, -⟩
      · exact hs.apart k id hk r hr hb
      · exact absurd (hs.lt k r hr) (by rw [hb]; exact Nat.lt_irrefl _)
  · -- a row of another appender is neither an old nor a new row of this one
    have hother (k : AppenderId) (hk : k ≠ id) (r : Row) (hr : r ∈ s.buffered k) :
        r ∉ s'.buffered id := by
      intro hr'
      rcases h.mem_rows (.inr hr') with hb | ⟨hb, -⟩
      · exact hs.apart k id hk r hr hb
      · exact absurd (hs.lt k r hr) (by rw [hb]; exact Nat.lt_irrefl _)
    intro j k hjk r hr
    by_cases hj : j = id
    · have hk : k ≠ id := fun hk ↦ hjk (hj.trans hk.symm)
      rw [h.buffered_other hk]
      exact fun hr' ↦ hother k hk r hr' (hj ▸ hr)
    · rw [h.buffered_other hj] at hr
      by_cases hk : k = id
      · rw [hk]
        exact hother j hj r hr
      · rw [h.buffered_other hk]
        exact hs.apart j k hjk r hr
  · by_cases hkid : k = id
    · subst hkid
      exact h.linked (hs.linked k) hk
    · rw [State.opened, h.other k hkid] at hk
      exact h.links k hkid (hs.linked k hk)

end Moves

theorem Chain.invariant (h : Chain s calls s') (hs : Invariant s) : Invariant s' := by
  induction h with
  | nil => exact hs
  | cons hm _ ih => exact ih (hm.invariant hs)

/-- A row that was appended, is not written, and is buffered by dead appenders
only. -/
structure Doomed (s : State) (r : Row) : Prop where
  lt : r < s.next
  unwritten : r ∉ s.log
  dead : ∀ id, r ∈ s.buffered id → s.dead id

theorem Moves.doomed (h : Moves s id calls s') (hr : Doomed s r) : Doomed s' r := by
  have hbuffered (hmem : r ∈ calls.flatMap Called.wrote ∨ r ∈ s'.buffered id) : s.dead id := by
    rcases h.mem_rows hmem with hb | ⟨hb, -⟩
    · exact hr.dead id hb
    · exact absurd hr.lt (by rw [hb]; exact Nat.lt_irrefl _)
  refine ⟨Nat.lt_of_lt_of_le hr.lt h.next, ?_, fun k hk ↦ ?_⟩
  · rw [h.log_eq, List.mem_append, not_or]
    refine ⟨hr.unwritten, fun hw ↦ ?_⟩
    rcases h.silent (hbuffered (.inl hw)) with ⟨rfl, -⟩ | ⟨rfl, -⟩
    all_goals simp [finalCalls] at hw
  · by_cases hkid : k = id
    · subst hkid
      exact h.stays (hbuffered (.inr hk))
    · rw [h.buffered_other hkid] at hk
      obtain ⟨a, ha, hd⟩ := hr.dead k hk
      exact ⟨a, (h.other k hkid).trans ha, hd⟩

theorem Chain.doomed (h : Chain s calls s') (hr : Doomed s r) : Doomed s' r := by
  induction h with
  | nil => exact hr
  | cons hm _ ih => exact ih (hm.doomed hr)

theorem Chain.trace_eq (h : Chain s calls s') : s'.trace = s.trace ++ calls := by
  induction h with
  | nil => exact (List.append_nil _).symm
  | cons hm _ ih => rw [ih, hm.trace, List.append_assoc]

theorem Moves.dead_other (h : Moves s id calls s') (hk : k ≠ id) (hd : s.dead k) : s'.dead k := by
  obtain ⟨a, ha, hd⟩ := hd
  exact ⟨a, (h.other k hk).trans ha, hd⟩

theorem Moves.opened_other (h : Moves s id calls s') (hk : k ≠ id) :
    s'.opened k ↔ s.opened k := by
  rw [State.opened, State.opened, h.other k hk]

theorem Moves.filter_other (h : Moves s id calls s') (hk : k ≠ id) :
    calls.filter (fun c ↦ c.appender = k) = [] := by
  refine List.filter_eq_nil_iff.mpr fun c hc hck ↦ hk ?_
  rw [← of_decide_eq_true hck, h.mine c hc]

theorem finalCalls_filter (id : AppenderId) :
    (finalCalls id).filter (fun c ↦ c.appender = id) = finalCalls id := by
  simp [finalCalls]

/-- Along a chain a dead appender sees no native call, or the final ones. -/
theorem Chain.silent (h : Chain s calls s') (hd : s.dead k) :
    calls.filter (fun c ↦ c.appender = k) = [] ∧ (s'.opened k → s.opened k) ∨
    calls.filter (fun c ↦ c.appender = k) = finalCalls k ∧ s.opened k ∧ ¬ s'.opened k := by
  induction h with
  | nil => exact .inl ⟨rfl, fun ho ↦ ho⟩
  | @cons s s₁ s₂ id calls₁ calls₂ hm _ ih =>
    rw [List.filter_append]
    by_cases hk : k = id
    · subst hk
      have hrest := ih (hm.stays hd)
      rcases hm.silent hd with ⟨rfl, hopen⟩ | ⟨rfl, hopen, hgone⟩
      · rw [List.filter_nil, List.nil_append]
        rcases hrest with ⟨hnil, ho⟩ | ⟨hfinal, ho, hgone⟩
        · exact .inl ⟨hnil, fun h ↦ hopen (ho h)⟩
        · exact .inr ⟨hfinal, hopen ho, hgone⟩
      · -- once destroyed, the appender is not opened again
        rcases hrest with ⟨hnil, ho⟩ | ⟨-, ho, -⟩
        · rw [hnil, List.append_nil, finalCalls_filter]
          exact .inr ⟨rfl, hopen, fun h ↦ hgone (ho h)⟩
        · exact absurd ho hgone
    · rw [hm.filter_other hk, List.nil_append, ← hm.opened_other hk]
      exact ih (hm.dead_other hk hd)

/-- An operation that leaves one appender as `a`. -/
theorem moves_of {a : Appender} (happenders : s'.appenders = Function.update s.appenders id (some a))
    (htrace : s'.trace = s.trace ++ calls) (hmine : ∀ c ∈ calls, c.appender = id)
    (hnext : s.next ≤ s'.next)
    (hrows : (calls.flatMap Called.wrote ++ a.native.getD []).Sublist
      (s.buffered id ++ if s.next < s'.next then [s.next] else []))
    (hdead : s.dead id → calls = finalCalls id ∧ s.opened id ∧ a.native = none)
    (hlinks : ∀ k, k ≠ id → k ∈ s.live → k ∈ s'.live)
    (hlinked : (s.opened id → id ∈ s.live) → a.native.isSome → id ∈ s'.live) :
    Moves s id calls s' := by
  have hself : s'.appenders id = some a := by rw [happenders, Function.update_self]
  have hbuffered : s'.buffered id = a.native.getD [] := by rw [State.buffered, hself]; rfl
  refine ⟨htrace, hmine, fun k hk ↦ ?_, hnext, ?_, fun hd ↦ ⟨a, hself, .inl (hdead hd).2.2⟩,
    fun hd ↦ .inr ⟨(hdead hd).1, (hdead hd).2.1, ?_⟩, hlinks, fun hs ho ↦ ?_⟩
  · rw [happenders, Function.update_of_ne hk]
  · rw [hbuffered]
    exact hrows
  · rintro ⟨buffer, closed, ha⟩
    rw [hself, Option.some.injEq] at ha
    have hnone := (hdead hd).2.2
    rw [ha] at hnone
    cases hnone
  · obtain ⟨buffer, closed, ha⟩ := ho
    rw [hself, Option.some.injEq] at ha
    exact hlinked hs (by rw [ha]; rfl)

theorem liveBuffer_eq_some :
    s.liveBuffer id = some buffer ↔ s.appenders id = some ⟨some buffer, false⟩ := by
  unfold State.liveBuffer
  constructor
  · intro h
    split at h
    case h_1 b hb =>
      obtain rfl := Option.some.inj h
      exact hb
    case h_2 => cases h
  · intro h
    rw [h]

theorem not_dead_of_live (h : s.liveBuffer id = some buffer) : ¬ s.dead id := by
  rintro ⟨a, ha, hd⟩
  rw [liveBuffer_eq_some.mp h, Option.some.injEq] at ha
  subst ha
  rcases hd with hd | hd <;> cases hd

/-- An operation on an appender in use, which stays linked. -/
theorem moves_of_live {a : Appender} (hlive : s.liveBuffer id = some buffer)
    (happenders : s'.appenders = Function.update s.appenders id (some a))
    (htrace : s'.trace = s.trace ++ calls) (hmine : ∀ c ∈ calls, c.appender = id)
    (hnext : s.next ≤ s'.next) (hlinks : s'.live = s.live)
    (hrows : (calls.flatMap Called.wrote ++ a.native.getD []).Sublist
      (buffer ++ if s.next < s'.next then [s.next] else [])) : Moves s id calls s' := by
  have hb : s.buffered id = buffer := by
    rw [State.buffered, liveBuffer_eq_some.mp hlive]
    rfl
  refine moves_of happenders htrace hmine hnext (hb ▸ hrows)
    (fun hd ↦ absurd hd (not_dead_of_live hlive)) (fun k _ hk ↦ hlinks ▸ hk) (fun hl _ ↦ ?_)
  rw [hlinks]
  exact hl ⟨buffer, false, liveBuffer_eq_some.mp hlive⟩

/-- The cells' native appends write nothing. -/
theorem appendCells_eq (s : State) (id : AppenderId) (cells : List Bool) :
    ∃ n, (s.appendCells id cells).1 =
      { s with trace := s.trace ++ List.replicate n ⟨id, .append, []⟩ } := by
  induction cells generalizing s with
  | nil => exact ⟨0, by simp [State.appendCells]⟩
  | cons ok cells ih =>
    unfold State.appendCells
    split
    · obtain ⟨n, hn⟩ := ih (s.called id .append [])
      refine ⟨n + 1, ?_⟩
      rw [hn, List.replicate_succ]
      simp [State.called]
    · exact ⟨1, rfl⟩

theorem flatMap_replicate_append (n : ℕ) (id : AppenderId) :
    (List.replicate n (⟨id, .append, []⟩ : Called)).flatMap Called.wrote = [] := by
  induction n with
  | zero => rfl
  | succ n ih => rw [List.replicate_succ, List.flatMap_cons, ih]; rfl

theorem appendCells_ok (s : State) (id : AppenderId) (cells : List Bool) :
    (s.appendCells id cells).2 = true ↔ false ∉ cells := by
  induction cells generalizing s with
  | nil => simp [State.appendCells]
  | cons ok cells ih => cases ok <;> simp [State.appendCells, ih]

def Appending.fails (o : Appending) : Prop :=
  o.enforced = .ok () ∧ o.valid = .ok () ∧ o.entered = .ok () ∧
    (false ∈ o.cells ∨ ∃ kept, o.endRow = .failed kept)

def Flushing.fails (o : Flushing) : Prop :=
  o.enforced = .ok () ∧ o.entered = .ok () ∧ o.ok = false

def Releasing.fails (o : Releasing) : Prop := o.allowed = false ∨ o.closeOk = false

theorem dead_put_closed (buffer : List Row) :
    (s.put id ⟨some buffer, true⟩).dead id :=
  ⟨⟨some buffer, true⟩, Function.update_self .., .inr rfl⟩

theorem dead_poison (buffer : List Row) : (s.poison id buffer).dead id :=
  dead_put_closed buffer

theorem appendRow_moves (s : State) (id : AppenderId) (o : Appending) :
    ∃ calls, Moves s id calls (s.appendRow id o).1 ∧
      (∀ buffer, s.liveBuffer id = some buffer → o.fails →
        calls.flatMap Called.wrote = [] ∧ (s.appendRow id o).1.dead id) := by
  unfold State.appendRow
  split
  case h_1 hnone =>
    refine ⟨[], Moves.refl s id, fun buffer hlive ↦ ?_⟩
    rw [hnone] at hlive
    cases hlive
  case h_2 buffer hlive =>
    split
    case h_1 =>
      obtain ⟨n, hn⟩ := appendCells_eq s id o.cells
      have hok := appendCells_ok s id o.cells
      rcases hcells : s.appendCells id o.cells with ⟨s₁, ok⟩
      rw [hcells] at hn hok
      obtain rfl := hn
      cases ok with
      | false =>
        refine ⟨List.replicate n ⟨id, .append, []⟩ ++ [⟨id, .errorData, []⟩],
          moves_of_live (a := ⟨some buffer, true⟩) hlive rfl ?_ ?_ (Nat.le_refl _) rfl ?_,
          fun _ _ _ ↦ ⟨?_, dead_poison buffer⟩⟩
        · simp [State.poison, State.called, State.put]
        · simp only [List.mem_append, List.mem_singleton]
          rintro c (hc | rfl)
          · rw [List.eq_of_mem_replicate hc]
          · rfl
        · simp [flatMap_replicate_append, State.poison, State.called, State.put]
        · simp [flatMap_replicate_append]
      | true =>
        simp only [State.endRow]
        split
        case h_1 flushes hend =>
          refine ⟨List.replicate n ⟨id, .append, []⟩ ++
            [⟨id, .endRow, (writeBuffer flushes (buffer ++ [s.next])).2⟩],
            moves_of_live (a := ⟨some (writeBuffer flushes (buffer ++ [s.next])).1, false⟩)
              hlive rfl ?_ ?_ (Nat.le_succ _) rfl ?_, fun _ _ hfails ↦ ?_⟩
          · simp [State.called, State.put]
          · simp only [List.mem_append, List.mem_singleton]
            rintro c (hc | rfl)
            · rw [List.eq_of_mem_replicate hc]
            · rfl
          · cases flushes <;>
              simp [flatMap_replicate_append, writeBuffer, State.called, State.put]
          · obtain ⟨-, -, -, hcell | ⟨kept, hkept⟩⟩ := hfails
            · exact absurd hcell (hok.mp rfl)
            · rw [hend] at hkept
              cases hkept
        case h_2 kept hend =>
          refine ⟨List.replicate n ⟨id, .append, []⟩ ++
            [⟨id, .endRow, []⟩, ⟨id, .errorData, []⟩],
            moves_of_live (a := ⟨some (if kept then buffer ++ [s.next] else buffer), true⟩)
              hlive rfl ?_ ?_ (Nat.le_succ _) rfl ?_, fun _ _ _ ↦ ⟨?_, dead_poison _⟩⟩
          · simp [State.called, State.put, State.poison]
          · simp only [List.mem_append, List.mem_cons, List.not_mem_nil, or_false]
            rintro c (hc | rfl | rfl)
            · rw [List.eq_of_mem_replicate hc]
            · rfl
            · rfl
          · cases kept <;>
              simp [flatMap_replicate_append, State.called, State.put, State.poison]
          · simp [flatMap_replicate_append]
    all_goals
      rename_i hanswers
      refine ⟨[], Moves.refl s id, fun _ _ hfails ↦ ?_⟩
      obtain ⟨he, hv, hn, -⟩ := hfails
      simp_all

/-- The row of an `appendRow` that succeeds is buffered, or written with the buffer. -/
theorem appendRow_row {o : Appending} (hok : (s.appendRow id o).2 = .ok ()) :
    s.next ∈ (s.appendRow id o).1.buffered id ∨ s.next ∈ (s.appendRow id o).1.log := by
  unfold State.appendRow at hok ⊢
  cases hlive : s.liveBuffer id with
  | none =>
    rw [hlive] at hok
    cases hok
  | some buffer =>
    rw [hlive] at hok
    dsimp only at hok ⊢
    split at hok
    · obtain ⟨n, hn⟩ := appendCells_eq s id o.cells
      rcases hcells : s.appendCells id o.cells with ⟨s₁, ok⟩
      rw [hcells] at hn hok
      obtain rfl := hn
      cases ok with
      | false => cases hok
      | true =>
        dsimp only [State.endRow] at hok ⊢
        cases hend : o.endRow with
        | failed kept =>
          rw [hend] at hok
          cases hok
        | done flushes =>
          cases flushes with
          | false =>
            left
            simp [writeBuffer, State.buffered, State.put]
          | true =>
            right
            simp [writeBuffer, State.log, State.put, State.called]
    all_goals cases hok

theorem writeOut_moves (call : NativeCall) (keeps : Bool) (failure : String) (s : State)
    (id : AppenderId) (o : Flushing) :
    ∃ calls, Moves s id calls (State.writeOut call keeps failure s id o).1 ∧
      (∀ buffer, s.liveBuffer id = some buffer → o.fails →
        calls.flatMap Called.wrote = [] ∧ (State.writeOut call keeps failure s id o).1.dead id) := by
  unfold State.writeOut
  split
  case h_1 hnone =>
    refine ⟨[], Moves.refl s id, fun buffer hlive ↦ ?_⟩
    rw [hnone] at hlive
    cases hlive
  case h_2 buffer hlive =>
    split
    case h_1 =>
      rcases hok : o.ok with _ | _
      · refine ⟨[⟨id, call, []⟩, ⟨id, .errorData, []⟩],
          moves_of_live (a := ⟨some buffer, true⟩) hlive rfl ?_ ?_ (Nat.le_refl _) rfl ?_,
          fun _ _ _ ↦ ⟨rfl, dead_poison buffer⟩⟩
        · simp [writeBuffer, State.poison, State.called, State.put]
        · simp
        · simp [writeBuffer, State.poison, State.called, State.put]
      · refine ⟨[⟨id, call, buffer⟩],
          moves_of_live (a := ⟨some [], !keeps⟩) hlive rfl rfl ?_ (Nat.le_refl _) rfl ?_,
          fun _ _ hfails ↦ ?_⟩
        · simp
        · simp [writeBuffer, State.called, State.put]
        · rw [hfails.2.2] at hok
          cases hok
    all_goals
      refine ⟨[], Moves.refl s id, fun _ _ hfails ↦ ?_⟩
      obtain ⟨he, hn, -⟩ := hfails
      simp_all

theorem releaseNative_moves (s : State) (id : AppenderId) (o : Releasing) :
    ∃ calls, Moves s id calls (s.releaseNative id o).1 ∧
      (∀ buffer, s.liveBuffer id = some buffer → id ∈ s.live →
        (o.fails → calls.flatMap Called.wrote = []) ∧
        (¬ o.fails → ⟨id, .close, buffer⟩ ∈ calls) ∧ (s.releaseNative id o).1.dead id) := by
  have hlinks (k : AppenderId) (hk : k ≠ id) (hmem : k ∈ s.live) : k ∈ s.live.erase id :=
    (List.mem_erase_of_ne hk).mpr hmem
  unfold State.releaseNative
  split
  case isTrue hmem => exact ⟨[], Moves.refl s id, fun _ _ hlinked ↦ absurd hlinked hmem⟩
  case isFalse hmem =>
    dsimp only
    split
    case h_1 buffer wasClosed ha =>
      have hb : s.buffered id = buffer := by rw [State.buffered, ha]; rfl
      have hclosed (hd : s.dead id) : wasClosed = true := by
        obtain ⟨a, ha', hd⟩ := hd
        rw [ha, Option.some.injEq] at ha'
        subst ha'
        rcases hd with hd | hd
        · cases hd
        · exact hd
      let closing : List Called :=
        if !wasClosed && o.allowed then
          if o.closeOk then [⟨id, .close, buffer⟩] else [⟨id, .close, []⟩, ⟨id, .errorData, []⟩]
        else []
      have hmine : ∀ c ∈ closing, c.appender = id := by
        simp only [closing]
        split_ifs <;> simp
      have hwrote : closing.flatMap Called.wrote = [] ∨ closing.flatMap Called.wrote = buffer := by
        simp only [closing]
        split_ifs <;> simp
      refine ⟨closing ++ finalCalls id,
        moves_of (a := ⟨none, true⟩) ?_ ?_ ?_ ?_ ?_ ?_ (fun k hk hmem ↦ ?_) (fun _ h ↦ by cases h),
        fun buffer' hlive _ ↦ ⟨fun hfails ↦ ?_, fun hfails ↦ ?_,
          ⟨⟨none, true⟩, Function.update_self .., .inl rfl⟩⟩⟩
      · simp only [State.put, State.called]
        split_ifs <;> rfl
      · simp only [State.put, State.called, closing, writeBuffer, clearBuffer, finalCalls]
        cases wasClosed <;> cases o.allowed <;> cases o.closeOk <;> cases o.destroyOk <;> simp
      · simp only [finalCalls, List.mem_append, List.mem_cons, List.not_mem_nil, or_false]
        rintro c (hc | rfl | rfl)
        exacts [hmine c hc, rfl, rfl]
      · simp only [State.put, State.called]
        split_ifs <;> exact Nat.le_refl _
      · rw [hb, List.flatMap_append]
        rcases hwrote with hw | hw <;> simp [hw, finalCalls]
      · intro hd
        refine ⟨?_, ⟨buffer, wasClosed, ha⟩, rfl⟩
        simp [closing, hclosed hd]
      · simp only [State.put, State.called]
        split_ifs <;> exact hlinks k hk hmem
      · have hclosing : closing.flatMap Called.wrote = [] := by
          rcases hfails with hf | hf
          · simp [closing, hf]
          · simp only [closing, hf, Bool.false_eq_true, if_false]
            split <;> rfl
        rw [List.flatMap_append, hclosing]
        rfl
      · rw [liveBuffer_eq_some, ha, Option.some.injEq] at hlive
        cases hlive
        rw [Releasing.fails, not_or, Bool.not_eq_false, Bool.not_eq_false] at hfails
        simp [closing, hfails.1, hfails.2]
    case h_2 hnone =>
      refine ⟨[], ⟨?_, by simp, fun _ _ ↦ rfl, Nat.le_refl _, by simp [State.buffered],
        fun hd ↦ hd, fun _ ↦ .inl ⟨rfl, fun ho ↦ ho⟩, hlinks, fun _ ho ↦ ?_⟩, fun buffer hlive ↦ ?_⟩
      · simp
      · obtain ⟨buffer, closed, ha⟩ := ho
        exact absurd ha (hnone buffer closed)
      · exact absurd (liveBuffer_eq_some.mp hlive) (hnone buffer false)

theorem discard_moves (s : State) (id : AppenderId) (freed : Bool) :
    ∃ calls, Moves s id calls (s.discard id freed) ∧
      (∀ buffer, s.liveBuffer id = some buffer → freed →
        calls.flatMap Called.wrote = [] ∧ (s.discard id freed).buffered id = []) := by
  unfold State.discard
  split
  case h_1 buffer hlive =>
    cases freed with
    | true =>
      refine ⟨[⟨id, .clear, []⟩],
        moves_of_live (a := ⟨some [], false⟩) hlive rfl rfl ?_ (Nat.le_refl _) rfl ?_,
        fun _ _ _ ↦ ⟨rfl, ?_⟩⟩
      · simp
      · simp [State.called, State.put]
      · simp [State.buffered, State.put, clearBuffer]
    | false => exact ⟨[], Moves.refl s id, fun _ _ hfreed ↦ by cases hfreed⟩
  case h_2 hnone =>
    refine ⟨[], Moves.refl s id, fun buffer hlive ↦ ?_⟩
    rw [hnone] at hlive
    cases hlive

theorem create_moves (s : State) (id : AppenderId) (columns : Bool) :
    ∃ calls, Moves s id calls (s.create id columns) := by
  unfold State.create
  split
  case isFalse => exact ⟨[], Moves.refl s id⟩
  case isTrue hnone =>
    have hdead : ¬ s.dead id := by
      rintro ⟨a, ha, -⟩
      rw [hnone] at ha
      cases ha
    cases columns with
    | true =>
      refine ⟨[], moves_of (a := ⟨some [], false⟩) rfl (List.append_nil _).symm (by simp) (Nat.le_refl _) ?_
        (fun hd ↦ absurd hd hdead) (fun _ _ hk ↦ List.mem_cons_of_mem _ hk)
        (fun _ _ ↦ List.mem_cons_self)⟩
      simp
    | false =>
      refine ⟨[⟨id, .errorData, []⟩], moves_of (a := ⟨some [], true⟩) rfl rfl (by simp) (Nat.le_refl _) ?_
        (fun hd ↦ absurd hd hdead) (fun _ _ hk ↦ List.mem_cons_of_mem _ hk)
        (fun _ _ ↦ List.mem_cons_self)⟩
      simp

theorem foldl_chain (f : State → AppenderId → State)
    (hf : ∀ s id, ∃ calls, Moves s id calls (f s id)) (ids : List AppenderId) (s : State) :
    ∃ calls, Chain s calls (ids.foldl f s) := by
  induction ids generalizing s with
  | nil => exact ⟨[], .nil s⟩
  | cons id ids ih =>
    obtain ⟨calls, hm⟩ := hf s id
    obtain ⟨calls', hc⟩ := ih (f s id)
    exact ⟨calls ++ calls', .cons hm hc⟩

theorem release_moves (o : AppenderId → Releasing) (s : State) (id : AppenderId) :
    ∃ calls, Moves s id calls (s.releaseNative id (o id)).1 := by
  obtain ⟨calls, hm, -⟩ := releaseNative_moves s id (o id)
  exact ⟨calls, hm⟩

theorem discarded_moves (freed : AppenderId → Bool) (s : State) (id : AppenderId) :
    ∃ calls, Moves s id calls (s.discard id (freed id)) := by
  obtain ⟨calls, hm, -⟩ := discard_moves s id (freed id)
  exact ⟨calls, hm⟩

/-- Every event is a chain of operations on single appenders. -/
theorem step_chain (s : State) (e : Event) : ∃ calls, Chain s calls (step s e) := by
  have hone {id : AppenderId} {s' : State} {P : List Called → Prop}
      (h : ∃ calls, Moves s id calls s' ∧ P calls) : ∃ calls, Chain s calls s' := by
    obtain ⟨calls, hm, -⟩ := h
    exact ⟨calls, .one hm⟩
  cases e with
  | create id columns =>
    obtain ⟨calls, hm⟩ := create_moves s id columns
    exact ⟨calls, .one hm⟩
  | appendRow id o => exact hone (appendRow_moves s id o)
  | flush id o => exact hone (writeOut_moves .flush true "Failed to flush appender: " s id o)
  | close id o => exact hone (writeOut_moves .close false "Failed to close appender: " s id o)
  | release id o => exact hone (releaseNative_moves s id o)
  | disconnect o => exact foldl_chain _ (release_moves o) s.live s
  | rollback freed => exact foldl_chain _ (discarded_moves freed) s.live s

theorem run_chain (es : List Event) (s : State) :
    ∃ calls, Chain s calls (Runs.run step s es) := by
  induction es generalizing s with
  | nil => exact ⟨[], .nil s⟩
  | cons e es ih =>
    obtain ⟨calls, hc⟩ := step_chain s e
    obtain ⟨calls', hc'⟩ := ih (step s e)
    exact ⟨calls ++ calls', hc.trans hc'⟩

theorem invariant_run (es : List Event) : Invariant (Runs.run step State.initial es) := by
  obtain ⟨calls, hc⟩ := run_chain es State.initial
  exact hc.invariant Invariant.initial

/-- A step of one appender that writes nothing, and leaves it dead or empty,
dooms the rows it had and the rows it has. -/
theorem Moves.dooms (h : Moves s id calls s') (hs : Invariant s)
    (hw : calls.flatMap Called.wrote = []) (hd : s'.dead id ∨ s'.buffered id = [])
    (hr : r ∈ s.buffered id ∨ r ∈ s'.buffered id) : Doomed s' r := by
  have hs' : Invariant s' := h.invariant hs
  have hlog : s'.log = s.log := by rw [h.log_eq, hw, List.append_nil]
  refine ⟨?_, ?_, fun k hk ↦ ?_⟩
  · rcases hr with hr | hr
    · exact Nat.lt_of_lt_of_le (hs.lt id r hr) h.next
    · exact hs'.lt id r hr
  · rcases hr with hr | hr
    · rw [hlog]
      exact hs.unwritten id r hr
    · exact hs'.unwritten id r hr
  · by_cases hkid : k = id
    · subst hkid
      rcases hd with hd | hd
      · exact hd
      · rw [hd] at hk
        cases hk
    · rcases hr with hr | hr
      · rw [h.buffered_other hkid] at hk
        exact absurd hk (hs.apart id k (Ne.symm hkid) r hr)
      · exact absurd hk (hs'.apart id k (Ne.symm hkid) r hr)

theorem foldl_other (f : State → AppenderId → State)
    (hf : ∀ s id, ∃ calls, Moves s id calls (f s id)) {ids : List AppenderId} (hid : id ∉ ids)
    (s : State) : (ids.foldl f s).appenders id = s.appenders id := by
  induction ids generalizing s with
  | nil => rfl
  | cons k ids ih =>
    rw [List.mem_cons, not_or] at hid
    obtain ⟨hk, hids⟩ := hid
    obtain ⟨calls, hm⟩ := hf s k
    rw [List.foldl_cons, ih hids, hm.other id hk]

/-- A native append, flush or close of the appender fails, its destruction is
denied, or a rollback discards it. -/
def Fails (id : AppenderId) : Event → Prop
  | .create _ _ => False
  | .appendRow k o => k = id ∧ o.fails
  | .flush k o => k = id ∧ o.fails
  | .close k o => k = id ∧ o.fails
  | .release k o => k = id ∧ o.fails
  | .disconnect o => (o id).fails
  | .rollback freed => freed id = true

theorem live_buffered (h : s.liveBuffer id = some buffer) : s.buffered id = buffer := by
  rw [State.buffered, liveBuffer_eq_some.mp h]
  rfl

theorem live_linked (hs : Invariant s) (h : s.liveBuffer id = some buffer) : id ∈ s.live :=
  hs.linked id ⟨buffer, false, liveBuffer_eq_some.mp h⟩

/-- A fold over the linked appenders, at the turn of one of them. -/
theorem foldl_turn (f : State → AppenderId → State)
    (hf : ∀ s id, ∃ calls, Moves s id calls (f s id)) (hs : Invariant s)
    (hlive : s.liveBuffer id = some buffer) :
    ∃ s₁ calls₁ calls₂, Chain s calls₁ s₁ ∧ s₁.liveBuffer id = some buffer ∧
      Chain (f s₁ id) calls₂ (s.live.foldl f s) := by
  obtain ⟨ids, ids', hsplit, hid⟩ := List.eq_append_cons_of_mem (live_linked hs hlive)
  obtain ⟨calls₁, hc₁⟩ := foldl_chain f hf ids s
  obtain ⟨calls₂, hc₂⟩ := foldl_chain f hf ids' (f (ids.foldl f s) id)
  refine ⟨ids.foldl f s, calls₁, calls₂, hc₁, ?_, ?_⟩
  · rw [liveBuffer_eq_some, foldl_other f hf hid]
    exact liveBuffer_eq_some.mp hlive
  · rw [hsplit, List.foldl_append, List.foldl_cons]
    exact hc₂

theorem doomed_of_fails (hs : Invariant s) (hlive : s.liveBuffer id = some buffer) {e : Event}
    (hfails : Fails id e) (hr : r ∈ buffer) : Doomed (step s e) r := by
  have hmem : r ∈ s.buffered id := by rwa [live_buffered hlive]
  cases e with
  | create k columns => cases hfails
  | appendRow k o =>
    obtain ⟨rfl, hfails⟩ := hfails
    obtain ⟨calls, hm, hdooms⟩ := appendRow_moves s k o
    obtain ⟨hw, hd⟩ := hdooms buffer hlive hfails
    exact hm.dooms hs hw (.inl hd) (.inl hmem)
  | flush k o =>
    obtain ⟨rfl, hfails⟩ := hfails
    obtain ⟨calls, hm, hdooms⟩ := writeOut_moves .flush true "Failed to flush appender: " s k o
    obtain ⟨hw, hd⟩ := hdooms buffer hlive hfails
    exact hm.dooms hs hw (.inl hd) (.inl hmem)
  | close k o =>
    obtain ⟨rfl, hfails⟩ := hfails
    obtain ⟨calls, hm, hdooms⟩ := writeOut_moves .close false "Failed to close appender: " s k o
    obtain ⟨hw, hd⟩ := hdooms buffer hlive hfails
    exact hm.dooms hs hw (.inl hd) (.inl hmem)
  | release k o =>
    obtain ⟨rfl, hfails⟩ := hfails
    obtain ⟨calls, hm, hdooms⟩ := releaseNative_moves s k o
    obtain ⟨hw, -, hd⟩ := hdooms buffer hlive (live_linked hs hlive)
    exact hm.dooms hs (hw hfails) (.inl hd) (.inl hmem)
  | disconnect o =>
    obtain ⟨s₁, calls₁, calls₂, hc₁, hlive₁, hc₂⟩ := foldl_turn _ (release_moves o) hs hlive
    have hs₁ := hc₁.invariant hs
    obtain ⟨calls, hm, hdooms⟩ := releaseNative_moves s₁ id (o id)
    obtain ⟨hw, -, hd⟩ := hdooms buffer hlive₁ (live_linked hs₁ hlive₁)
    exact hc₂.doomed (hm.dooms hs₁ (hw hfails) (.inl hd) (.inl (by rwa [live_buffered hlive₁])))
  | rollback freed =>
    obtain ⟨s₁, calls₁, calls₂, hc₁, hlive₁, hc₂⟩ := foldl_turn _ (discarded_moves freed) hs hlive
    obtain ⟨calls, hm, hdooms⟩ := discard_moves s₁ id (freed id)
    obtain ⟨hw, hempty⟩ := hdooms buffer hlive₁ hfails
    exact hc₂.doomed (hm.dooms (hc₁.invariant hs) hw (.inr hempty)
      (.inl (by rwa [live_buffered hlive₁])))

/-- A row that DuckDB kept when its append failed. -/
theorem doomed_of_append (hs : Invariant s) (hlive : s.liveBuffer id = some buffer) {o : Appending}
    (hfails : o.fails) (hr : r ∈ (s.appendRow id o).1.buffered id) :
    Doomed (s.appendRow id o).1 r := by
  obtain ⟨calls, hm, hdooms⟩ := appendRow_moves s id o
  obtain ⟨hw, hd⟩ := hdooms buffer hlive hfails
  exact hm.dooms hs hw (.inl hd) (.inr hr)

theorem never_written (h : Doomed s r) (es : List Event) : r ∉ (Runs.run step s es).log := by
  obtain ⟨calls, hc⟩ := run_chain es s
  exact (hc.doomed h).unwritten

/-- The appender is released, by its own destruction or by the connection's
closer, and is neither denied nor refused by DuckDB. -/
def Closes (id : AppenderId) : Event → Prop
  | .release k o => k = id ∧ ¬ o.fails
  | .disconnect o => ¬ (o id).fails
  | _ => False

theorem closed_of_closes (hs : Invariant s) (hlive : s.liveBuffer id = some buffer) {e : Event}
    (hcloses : Closes id e) : ∃ calls, (step s e).trace = s.trace ++ calls ∧
      ⟨id, .close, buffer⟩ ∈ calls := by
  cases e with
  | release k o =>
    obtain ⟨rfl, hok⟩ := hcloses
    obtain ⟨calls, hm, hcalls⟩ := releaseNative_moves s k o
    obtain ⟨-, hclose, -⟩ := hcalls buffer hlive (live_linked hs hlive)
    exact ⟨calls, hm.trace, hclose hok⟩
  | disconnect o =>
    obtain ⟨s₁, calls₁, calls₂, hc₁, hlive₁, hc₂⟩ := foldl_turn _ (release_moves o) hs hlive
    obtain ⟨calls, hm, hcalls⟩ := releaseNative_moves s₁ id (o id)
    obtain ⟨-, hclose, -⟩ := hcalls buffer hlive₁ (live_linked (hc₁.invariant hs) hlive₁)
    refine ⟨calls₁ ++ (calls ++ calls₂), ?_, ?_⟩
    · exact (hc₁.trans (.cons hm hc₂)).trace_eq
    · exact List.mem_append_right _ (List.mem_append_left _ (hclose hcloses))
  | _ => cases hcloses

/-- The appenders of a connection over every run of their operations. -/
theorem appenders_run (es : List Event) :
    let s := Runs.run step State.initial es
    s.log.Nodup ∧
    (∀ id buffer e, s.liveBuffer id = some buffer → Fails id e → ∀ r ∈ buffer, ∀ es',
      r ∉ (Runs.run step (step s e) es').log) ∧
    (∀ id buffer o, s.liveBuffer id = some buffer → o.fails →
      ∀ r ∈ (s.appendRow id o).1.buffered id, ∀ es',
        r ∉ (Runs.run step (s.appendRow id o).1 es').log) ∧
    (∀ id, s.dead id → ∀ es', ∃ calls, (Runs.run step s es').trace = s.trace ++ calls ∧
      (calls.filter (fun c ↦ c.appender = id) = [] ∨
        calls.filter (fun c ↦ c.appender = id) = finalCalls id ∧
          ¬ (Runs.run step s es').opened id)) ∧
    (∀ id buffer e, s.liveBuffer id = some buffer → Closes id e →
      (∃ calls, (step s e).trace = s.trace ++ calls ∧ ⟨id, .close, buffer⟩ ∈ calls) ∧
      ∀ r ∈ buffer, (step s e).log.count r = 1) ∧
    ∀ id o, (s.appendRow id o).2 = .ok () → s.next ∉ s.log ∧
      (s.next ∈ (s.appendRow id o).1.buffered id ∨ s.next ∈ (s.appendRow id o).1.log) := by
  intro s
  have hs : Invariant s := invariant_run es
  refine ⟨hs.log_nodup, fun id buffer e hlive hfails r hr ↦ ?_, fun id buffer o hlive hfails r hr ↦ ?_,
    fun id hd es' ↦ ?_, fun id buffer e hlive hcloses ↦ ?_,
    fun id o hok ↦ ⟨fun hr ↦ Nat.lt_irrefl s.next (hs.log_lt s.next hr), appendRow_row hok⟩⟩
  · exact never_written (doomed_of_fails hs hlive hfails hr)
  · exact never_written (doomed_of_append hs hlive hfails hr)
  · obtain ⟨calls, hc⟩ := run_chain es' s
    refine ⟨calls, hc.trace_eq, ?_⟩
    rcases hc.silent hd with ⟨hnil, -⟩ | ⟨hfinal, -, hgone⟩
    · exact .inl hnil
    · exact .inr ⟨hfinal, hgone⟩
  · obtain ⟨calls, htrace, hclose⟩ := closed_of_closes hs hlive hcloses
    refine ⟨⟨calls, htrace, hclose⟩, fun r hr ↦ ?_⟩
    obtain ⟨calls', hc⟩ := step_chain s e
    refine List.count_eq_one_of_mem (hc.invariant hs).log_nodup ?_
    rw [State.log, htrace, List.flatMap_append]
    exact List.mem_append_right _ (List.mem_flatMap.mpr ⟨_, hclose, hr⟩)

end PdoDuckdb.Appenders
