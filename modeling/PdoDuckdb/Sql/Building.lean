import PdoDuckdb.Library.Checked
import PdoDuckdb.Library.Numbering
import PdoDuckdb.Sql.Occurrences

namespace PdoDuckdb.Sql

open Byte Library.Scanning Library.Numbering Library.Checked

def pdoTexts (ls : List (Lexeme Byte Piece)) : List (List Byte) :=
  (ls.filter (·.kind.isPdo)).map (·.text)

@[simp] theorem pdoTexts_append (ls ms : List (Lexeme Byte Piece)) :
    pdoTexts (ls ++ ms) = pdoTexts ls ++ pdoTexts ms := by simp [pdoTexts]

def Style.piece : Style → Piece
  | .named => .named
  | _ => .positional

/-- The PDO side of a plan under construction: how the placeholders seen so far
are numbered under each style. -/
structure Numbering (ls : List (Lexeme Byte Piece)) (plan : Plan) : Prop where
  style : ∀ l ∈ ls, l.kind.isPdo → plan.style ≠ .none ∧ l.kind = plan.style.piece
  unused : plan.style = .none → plan.parameterCount = 0
  names : Numbered plan.names
  names_length : plan.style ≠ .positional → plan.names.length = plan.parameterCount
  named : plan.style = .named →
    plan.placeholders.map (fun p ↦ some p.index) = (pdoTexts ls).map fun t ↦ plan.names.lookup t
  positional : plan.style = .positional →
    plan.placeholders.map (·.index) = List.range plan.parameterCount
  order : (plan.placeholders.map (·.index)).eraseDups = List.range plan.parameterCount

/-- What `addPiece` maintains over the pieces read so far. -/
structure Built (sql : List Byte) (ls : List (Lexeme Byte Piece)) (ms : List Mark) (plan : Plan) :
    Prop where
  sql : plan.sql = sql
  marks : Marks 0 ls ms
  placeholders : plan.placeholders = ms.filterMap pdoOf
  natives : plan.nativePlaceholders = ms.filterMap nativeOf
  numbering : Numbering ls plan
  numbered : Numbered plan.nativePositions
  numbered_length : plan.nativePositions.length = plan.nativeParameterCount

/-- What `add_placeholder` does, in each of its two cases. -/
theorem Plan.addPlaceholder_cases {plan plan' : Plan} {offset : ℕ} {text : List Byte}
    {style : Style} (h : plan.addPlaceholder offset text style = .ok plan') :
    (plan.style = .none ∨ plan.style = style) ∧
    ((∃ index, plan.foundName style text = some index ∧
        plan' = { plan with style }.record offset text.length index) ∨
      plan.foundName style text = none ∧
        plan' = { plan with
          style
          names := plan.namesWith style text
          parameterCount := plan.parameterCount + 1 }.record offset text.length
            plan.parameterCount) := by
  unfold addPlaceholder at h
  by_cases hstyle : plan.style ≠ .none ∧ plan.style ≠ style
  · rw [if_pos hstyle] at h
    cases h
  · rw [if_neg hstyle] at h
    refine ⟨by tauto, ?_⟩
    cases hfound : plan.foundName style text with
    | some index =>
      rw [hfound] at h
      cases h
      exact .inl ⟨index, rfl, rfl⟩
    | none =>
      rw [hfound] at h
      dsimp only at h
      split_ifs at h
      cases h
      exact .inr ⟨rfl, rfl⟩

theorem eraseDups_snoc_old {is : List ℕ} {i n : ℕ} (h : is.eraseDups = List.range n) (hi : i < n) :
    (is ++ [i]).eraseDups = List.range n := by
  have hmem : i ∈ is := by rwa [← List.mem_eraseDups, h, List.mem_range]
  simp [List.eraseDups_append, List.removeAll, hmem, h]

theorem eraseDups_snoc_new {is : List ℕ} {n : ℕ} (h : is.eraseDups = List.range n) :
    (is ++ [n]).eraseDups = List.range (n + 1) := by
  have hmem : n ∉ is := by
    rw [← List.mem_eraseDups, h, List.mem_range]
    exact Nat.lt_irrefl n
  simp [List.eraseDups_append, List.removeAll, hmem, h, List.range_succ, List.eraseDups_cons]

variable {ls : List (Lexeme Byte Piece)} {plan plan' : Plan} {l : Lexeme Byte Piece}

structure SamePdo (plan plan' : Plan) : Prop where
  sql : plan'.sql = plan.sql
  style : plan'.style = plan.style
  names : plan'.names = plan.names
  count : plan'.parameterCount = plan.parameterCount
  placeholders : plan'.placeholders = plan.placeholders

theorem Numbering.same (h : Numbering ls plan) (hsame : SamePdo plan plan')
    (hl : l.kind.isPdo = false) : Numbering (ls ++ [l]) plan' where
  style := by
    intro l' hl' hpdo
    rcases List.mem_append.mp hl' with hl' | hl'
    · rw [hsame.style]
      exact h.style l' hl' hpdo
    · rw [List.mem_singleton.mp hl', hl] at hpdo
      cases hpdo
  unused := by simpa only [hsame.style, hsame.count] using h.unused
  names := hsame.names ▸ h.names
  names_length := by simpa only [hsame.style, hsame.names, hsame.count] using h.names_length
  named := by
    have hl' : pdoTexts [l] = [] := by simp [pdoTexts, hl]
    simpa only [hsame.style, hsame.names, hsame.placeholders, pdoTexts_append, hl',
      List.append_nil] using h.named
  positional := by
    simpa only [hsame.style, hsame.placeholders, hsame.count] using h.positional
  order := by simpa only [hsame.placeholders, hsame.count] using h.order

theorem Numbering.indices_of_unused (h : Numbering ls plan) (hnone : plan.style = .none) :
    plan.placeholders.map (·.index) = [] := by
  have horder := h.order
  rw [h.unused hnone, List.range_zero] at horder
  rw [List.eq_nil_iff_forall_not_mem]
  intro i hi
  rw [← List.mem_eraseDups, horder] at hi
  cases hi

theorem lookup_snoc_of_mem {names : List (List Byte × ℕ)} {texts : List (List Byte)}
    {indices : List ℕ} (h : indices.map some = texts.map fun t ↦ names.lookup t)
    (entry : List Byte × ℕ) :
    indices.map some = texts.map fun t ↦ (names ++ [entry]).lookup t := by
  rw [h]
  apply List.map_congr_left
  intro t ht
  have hsome : names.lookup t ∈ indices.map some := h ▸ List.mem_map_of_mem ht
  obtain ⟨i, -, hi⟩ := List.mem_map.mp hsome
  rw [lookup_append_of_some hi.symm, hi]

/-- A PDO placeholder that the plan accepts is numbered by its style. -/
theorem Numbering.addPlaceholder (h : Numbering ls plan) {offset : ℕ} {style : Style}
    (hstyle : style ≠ .none) (hkind : l.kind = style.piece)
    (hadd : plan.addPlaceholder offset l.text style = .ok plan') : Numbering (ls ++ [l]) plan' := by
  obtain ⟨hold, hcase⟩ := Plan.addPlaceholder_cases hadd
  have hpdo : l.kind.isPdo := by
    rw [hkind]
    cases style <;> rfl
  have htexts : pdoTexts (ls ++ [l]) = pdoTexts ls ++ [l.text] := by simp [pdoTexts, hpdo]
  have hall : ∀ l' ∈ ls ++ [l], l'.kind.isPdo → style ≠ .none ∧ l'.kind = style.piece := by
    intro l' hl' hpdo'
    rcases List.mem_append.mp hl' with hl' | hl'
    · obtain ⟨hne, hk⟩ := h.style l' hl' hpdo'
      rw [hold.resolve_left hne] at hk
      exact ⟨hstyle, hk⟩
    · rw [List.mem_singleton.mp hl']
      exact ⟨hstyle, hkind⟩
  have hnamed (hs : style = .named) : plan.names.length = plan.parameterCount ∧
      (plan.placeholders.map (·.index)).map some =
        (pdoTexts ls).map fun t ↦ plan.names.lookup t := by
    rcases hold with hnone | hsame
    · have hpdos : pdoTexts ls = [] := by
        simp only [pdoTexts, List.map_eq_nil_iff, List.filter_eq_nil_iff]
        intro l' hl' hpdo'
        exact (h.style l' hl' hpdo').1 hnone
      exact ⟨h.names_length (by simp [hnone]), by rw [h.indices_of_unused hnone, hpdos]; rfl⟩
    · rw [hs] at hsame
      refine ⟨h.names_length (by simp [hsame]), ?_⟩
      rw [List.map_map]
      exact h.named hsame
  obtain ⟨index, hfound, rfl⟩ | ⟨hnew, rfl⟩ := hcase
  · obtain ⟨rfl, hlookup⟩ : style = .named ∧ plan.names.lookup l.text = some index := by
      simpa [Plan.foundName] using hfound
    obtain ⟨hlength, hmap⟩ := hnamed rfl
    exact {
      style := hall
      unused := fun h ↦ absurd h hstyle
      names := h.names
      names_length := fun _ ↦ hlength
      named := fun _ ↦ by
        rw [List.map_map] at hmap
        simp only [Plan.record, htexts, List.map_append, List.map_singleton, hlookup]
        exact congrArg (· ++ [some index]) hmap
      positional := fun h ↦ absurd h (by simp [Plan.record])
      order := by
        have hi : index < plan.parameterCount := hlength ▸ h.names.lookup_lt hlookup
        simpa only [Plan.record, List.map_append, List.map_singleton] using
          eraseDups_snoc_old h.order hi }
  · have hnew (hs : style = .named) : plan.names.lookup l.text = none := by
      simpa [Plan.foundName, hs] using hnew
    refine {
      style := hall
      unused := fun h ↦ absurd h hstyle
      names := ?_
      names_length := ?_
      named := ?_
      positional := ?_
      order := by
        simpa only [Plan.record, List.map_append, List.map_singleton] using
          eraseDups_snoc_new h.order }
    · by_cases hs : style = .named
      · simp only [Plan.record, Plan.namesWith, if_pos hs, ← (hnamed hs).1]
        exact h.names.snoc (hnew hs)
      · simpa only [Plan.record, Plan.namesWith, if_neg hs] using h.names
    · intro hs
      have hs : style = .named := by cases style <;> simp_all [Plan.record]
      simp [Plan.record, Plan.namesWith, hs, (hnamed hs).1]
    · intro hs
      have hs : style = .named := hs
      obtain ⟨hlength, hmap⟩ := hnamed hs
      have hlast : (plan.names ++ [(l.text, plan.parameterCount)]).lookup l.text =
          some plan.parameterCount := by
        rw [List.lookup_append, hnew hs]
        simp
      have hmap := lookup_snoc_of_mem hmap (l.text, plan.parameterCount)
      rw [List.map_map] at hmap
      simp only [Plan.record, Plan.namesWith, if_pos hs, htexts, List.map_append, List.map_singleton, hlast]
      exact congrArg (· ++ [some plan.parameterCount]) hmap
    · intro hs
      have hs : style = .positional := hs
      simp only [Plan.record, List.map_append, List.map_singleton, List.range_succ]
      congr 1
      rcases hold with hnone | hsame
      · rw [h.indices_of_unused hnone, h.unused hnone, List.range_zero]
      · exact h.positional (hsame.trans hs)

section Native

variable {offset length position : ℕ} {name key : List Byte} {numeric anonymous : Bool}
  {mark : Option Byte}

/-- The native side of a plan: the positions are numbered, and each occurrence is
recorded. -/
structure NativeStep (plan plan' : Plan) : Prop where
  same : SamePdo plan plan'
  positions : Numbered plan.nativePositions ∧
      plan.nativePositions.length = plan.nativeParameterCount →
    Numbered plan'.nativePositions ∧ plan'.nativePositions.length = plan'.nativeParameterCount

theorem addNativeName_step (plan : Plan) (anonymous : Bool) (key : List Byte) (position : ℕ) :
    NativeStep plan (plan.addNativeName anonymous key position) ∧
      (plan.addNativeName anonymous key position).nativePlaceholders = plan.nativePlaceholders := by
  unfold Plan.addNativeName
  split_ifs
  · exact ⟨⟨⟨rfl, rfl, rfl, rfl, rfl⟩, id⟩, rfl⟩
  · exact ⟨⟨⟨rfl, rfl, rfl, rfl, rfl⟩, id⟩, rfl⟩

theorem addNativePosition_step (plan : Plan) (position : ℕ) :
    NativeStep plan (plan.addNativePosition position) ∧
      (plan.addNativePosition position).nativePlaceholders = plan.nativePlaceholders := by
  unfold Plan.addNativePosition
  cases hfound : plan.nativePositions.lookup position with
  | some _ => exact ⟨⟨⟨rfl, rfl, rfl, rfl, rfl⟩, id⟩, rfl⟩
  | none =>
    refine ⟨⟨⟨rfl, rfl, rfl, rfl, rfl⟩, ?_⟩, rfl⟩
    rintro ⟨hnumbered, hlength⟩
    have hsnoc := hnumbered.snoc hfound
    rw [hlength] at hsnoc
    exact ⟨hsnoc, by simp [hlength]⟩

theorem addNativePlaceholder_step (plan : Plan) (offset length : ℕ) (name : List Byte)
    (numeric : Bool) (mark : Option Byte) :
    let plan' := plan.addNativePlaceholder offset length name numeric mark
    NativeStep plan plan' ∧ (plan'.nativePlaceholders = plan.nativePlaceholders ∨
      ∃ position, plan'.nativePlaceholders =
        plan.nativePlaceholders ++ [⟨offset, length, position, numeric⟩]) := by
  unfold Plan.addNativePlaceholder
  generalize (if numeric then plan.numericPosition name
    else some (plan.nativeParameterCount, false)) = found
  cases found with
  | none => exact ⟨⟨⟨rfl, rfl, rfl, rfl, rfl⟩, id⟩, .inl rfl⟩
  | some r =>
    obtain ⟨position, anonymous⟩ := r
    dsimp only
    cases (if anonymous then none else plan.nativeNames.lookup (Plan.nativeKey mark name)) with
    | some old => exact ⟨⟨⟨rfl, rfl, rfl, rfl, rfl⟩, id⟩, .inr ⟨old, rfl⟩⟩
    | none =>
      obtain ⟨hname, hname'⟩ := addNativeName_step plan anonymous (Plan.nativeKey mark name) position
      generalize plan.addNativeName anonymous (Plan.nativeKey mark name) position = plan₁ at *
      obtain ⟨hposition, hposition'⟩ := addNativePosition_step plan₁ position
      refine ⟨⟨⟨?_, ?_, ?_, ?_, ?_⟩, fun h ↦ hposition.positions (hname.positions h)⟩,
        .inr ⟨position, ?_⟩⟩
      · exact hposition.same.sql.trans hname.same.sql
      · exact hposition.same.style.trans hname.same.style
      · exact hposition.same.names.trans hname.same.names
      · exact hposition.same.count.trans hname.same.count
      · exact hposition.same.placeholders.trans hname.same.placeholders
      · rw [← hname', ← hposition']
        rfl

end Native

variable {sql : List Byte} {ms : List Mark}

theorem Built.plain (h : Built sql ls ms plan) (hl : l.kind.isPdo = false)
    (hstep : NativeStep plan plan') (hnatives : plan'.nativePlaceholders = plan.nativePlaceholders) :
    Built sql (ls ++ [l]) (ms ++ [none]) plan' where
  sql := hstep.same.sql.trans h.sql
  marks := h.marks.append (.plain hl (.nil _))
  placeholders := by
    rw [hstep.same.placeholders, h.placeholders]
    simp [pdoOf]
  natives := by
    rw [hnatives, h.natives]
    simp [nativeOf]
  numbering := h.numbering.same hstep.same hl
  numbered := (hstep.positions ⟨h.numbered, h.numbered_length⟩).1
  numbered_length := (hstep.positions ⟨h.numbered, h.numbered_length⟩).2

theorem Built.native (h : Built sql ls ms plan) {numeric : Bool} {nameStart nameLength : ℕ}
    {mark : Option Byte} (hl : l.kind = .native numeric nameStart nameLength mark)
    (hstep : NativeStep plan plan') {position : ℕ}
    (hnatives : plan'.nativePlaceholders =
      plan.nativePlaceholders ++ [⟨(source ls).length, l.text.length, position, numeric⟩]) :
    Built sql (ls ++ [l])
      (ms ++ [some (true, ⟨(source ls).length, l.text.length, position, numeric⟩)]) plan' where
  sql := hstep.same.sql.trans h.sql
  marks := h.marks.append (by simpa using .native position hl (.nil _))
  placeholders := by
    rw [hstep.same.placeholders, h.placeholders]
    simp [pdoOf]
  natives := by
    rw [hnatives, h.natives]
    simp [nativeOf]
  numbering := h.numbering.same hstep.same (by rw [hl]; rfl)
  numbered := (hstep.positions ⟨h.numbered, h.numbered_length⟩).1
  numbered_length := (hstep.positions ⟨h.numbered, h.numbered_length⟩).2

theorem Built.pdo (h : Built sql ls ms plan) {style : Style} (hstyle : style ≠ .none)
    (hkind : l.kind = style.piece)
    (hadd : plan.addPlaceholder (source ls).length l.text style = .ok plan') :
    ∃ m, Built sql (ls ++ [l]) (ms ++ [m]) plan' := by
  have hpdo : l.kind.isPdo := by
    rw [hkind]
    cases style <;> rfl
  obtain ⟨index, hsql, hplaceholders, hnatives, hpositions, hcount⟩ : ∃ index,
      plan'.sql = plan.sql ∧
      plan'.placeholders =
        plan.placeholders ++ [⟨(source ls).length, l.text.length, index, true⟩] ∧
      plan'.nativePlaceholders = plan.nativePlaceholders ∧
      plan'.nativePositions = plan.nativePositions ∧
      plan'.nativeParameterCount = plan.nativeParameterCount := by
    obtain ⟨-, ⟨index, -, rfl⟩ | ⟨-, rfl⟩⟩ := Plan.addPlaceholder_cases hadd
    · exact ⟨index, rfl, rfl, rfl, rfl, rfl⟩
    · exact ⟨plan.parameterCount, rfl, rfl, rfl, rfl, rfl⟩
  refine ⟨some (false, ⟨(source ls).length, l.text.length, index, true⟩), hsql.trans h.sql, ?_, ?_, ?_,
    h.numbering.addPlaceholder hstyle hkind hadd, ?_, ?_⟩
  · exact h.marks.append (by simpa using .pdo index hpdo (.nil _))
  · simp [hplaceholders, h.placeholders, pdoOf]
  · simp [hnatives, h.natives, nativeOf]
  · exact hpositions ▸ h.numbered
  · rw [hpositions, hcount, h.numbered_length]

/-- Reading one more piece keeps the plan built. -/
theorem Built.addPiece (h : Built sql ls ms plan) {seen seen' : Bool}
    (hadd : Plan.addPiece (plan, seen) ((source ls).length, l) = .ok (plan', seen')) :
    ∃ m, Built sql (ls ++ [l]) (ms ++ [m]) plan' := by
  have hkeep (plan₁ : Plan) (hl : l.kind.isPdo = false) (hsame : SamePdo plan plan₁)
      (hnatives : plan₁.nativePlaceholders = plan.nativePlaceholders)
      (hpositions : plan₁.nativePositions = plan.nativePositions)
      (hcount : plan₁.nativeParameterCount = plan.nativeParameterCount) :
      ∃ m, Built sql (ls ++ [l]) (ms ++ [m]) plan₁ :=
    ⟨none, h.plain hl ⟨hsame, by rw [hpositions, hcount]; exact id⟩ hnatives⟩
  unfold Plan.addPiece at hadd
  dsimp only at hadd
  cases hk : l.kind with
  | named =>
    rw [hk] at hadd
    obtain ⟨plan₁, hplan₁, heq⟩ := bind_eq_ok.mp hadd
    cases heq
    exact @Built.pdo _ _ _ _ _ _ h .named (by decide) hk hplan₁
  | positional =>
    rw [hk] at hadd
    obtain ⟨plan₁, hplan₁, heq⟩ := bind_eq_ok.mp hadd
    cases heq
    exact @Built.pdo _ _ _ _ _ _ h .positional (by decide) hk hplan₁
  | native numeric nameStart nameLength mark =>
    rw [hk] at hadd
    cases hadd
    obtain ⟨hstep, hnatives⟩ := addNativePlaceholder_step
      { plan with
        hasDollarParameters := true
        hasNamedDollarParameters := plan.hasNamedDollarParameters || !numeric }
      (source ls).length l.text.length ((l.text.drop nameStart).take nameLength) numeric mark
    have hstep' : NativeStep plan _ :=
      ⟨⟨hstep.same.sql, hstep.same.style, hstep.same.names, hstep.same.count, hstep.same.placeholders⟩,
        hstep.positions⟩
    rcases hnatives with hnatives | ⟨position, hnatives⟩
    · exact ⟨none, h.plain (by rw [hk]; rfl) hstep' hnatives⟩
    · exact ⟨_, h.native hk hstep' hnatives⟩
  | _ =>
    rw [hk] at hadd
    cases hadd
    exact hkeep _ (by rw [hk]; rfl) ⟨rfl, rfl, rfl, rfl, rfl⟩ rfl rfl rfl

/-- The loop of `plan_create` builds the plan of everything it reads. -/
theorem Built.run (h : Built sql ls ms plan) {todo : List (Lexeme Byte Piece)} {seen : Bool}
    {state : Plan × Bool}
    (hrun : (positions (source ls).length todo).foldlM Plan.addPiece (plan, seen) = .ok state) :
    ∃ ms, Built sql (ls ++ todo) ms state.1 := by
  induction todo generalizing ls ms plan seen with
  | nil =>
    cases hrun
    exact ⟨ms, by simpa using h⟩
  | cons l todo ih =>
    rw [positions, List.foldlM_cons] at hrun
    obtain ⟨⟨plan₁, seen₁⟩, hadd, hrun⟩ := bind_eq_ok.mp hrun
    obtain ⟨m, h₁⟩ := h.addPiece hadd
    have hlen : (source (ls ++ [l])).length = (source ls).length + l.text.length := by simp
    obtain ⟨ms', h'⟩ := ih h₁ (by rwa [hlen])
    exact ⟨ms', by simpa using h'⟩

theorem Built.empty (sql : List Byte) (legacyParser : Bool) :
    Built sql [] [] { sql, legacyParser } where
  sql := rfl
  marks := .nil 0
  placeholders := rfl
  natives := rfl
  numbering := ⟨by simp, fun _ ↦ rfl, .nil, fun _ ↦ rfl, fun _ ↦ rfl, fun _ ↦ rfl, rfl⟩
  numbered := .nil
  numbered_length := rfl

theorem create_built {v2 legacyParser : Bool} {sql : List Byte}
    (h : Plan.create v2 legacyParser sql = .ok plan) :
    ∃ state ms, Built sql ((planner v2).scan sql) ms state ∧ plan = state.finish := by
  unfold Plan.create at h
  split_ifs at h
  obtain ⟨⟨state, seen⟩, hrun, heq⟩ := bind_eq_ok.mp h
  cases heq
  obtain ⟨ms, hbuilt⟩ := (Built.empty sql legacyParser).run hrun
  exact ⟨state, ms, hbuilt, rfl⟩

end PdoDuckdb.Sql
