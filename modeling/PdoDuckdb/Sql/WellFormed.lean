import PdoDuckdb.Sql.Building

namespace PdoDuckdb.Sql

open Byte Library.Scanning Library.Numbering Library.Checked

namespace Placeholder

def stop (p : Placeholder) : ℕ := p.offset + p.length

def text (sql : List Byte) (p : Placeholder) : List Byte := (sql.drop p.offset).take p.length

end Placeholder

def weave : List (List Byte) → List (List Byte) → List Byte
  | [], _ => []
  | gap :: _, [] => gap
  | gap :: gaps, x :: xs => gap ++ x ++ weave gaps xs

def slice (sql : List Byte) (start stop : ℕ) : List Byte := (sql.drop start).take (stop - start)

/-- The slices of the text between placeholders, from the offset `copied` on. -/
def gaps (sql : List Byte) (copied : ℕ) (ps : List Placeholder) : List (List Byte) :=
  List.zipWith (slice sql) (copied :: ps.map (·.stop)) (ps.map (·.offset) ++ [sql.length])

/-- What every user of a plan relies on. -/
structure Plan.WellFormed (plan : Plan) : Prop where
  inside : ∀ b, ∀ o ∈ plan.occurrences b, 0 < o.2.length ∧ o.2.stop ≤ plan.sql.length
  disjoint : ∀ b, (plan.occurrences b).Pairwise fun o o' ↦ o.2.stop ≤ o'.2.offset
  merged : (plan.occurrences true).Perm
    (plan.placeholders.map (false, ·) ++ plan.nativePlaceholders.map (true, ·))
  source : ∀ b, plan.sql = weave (gaps plan.sql 0 ((plan.occurrences b).map Prod.snd))
    ((plan.occurrences b).map fun o ↦ o.2.text plan.sql)
  rendered : ∀ values probe, plan.render values probe =
    weave (gaps plan.sql 0 ((plan.occurrences values.isSome).map Prod.snd))
      ((plan.occurrences values.isSome).map fun o ↦ plan.replacement values probe o.1 o.2)
  shared : ∀ (i j : ℕ) (p q : Placeholder), plan.placeholders[i]? = some p →
    plan.placeholders[j]? = some q → (p.index = q.index ↔
      i = j ∨ (p.text plan.sql).head? = some colon ∧ p.text plan.sql = q.text plan.sql)
  order : (plan.placeholders.map (·.index)).eraseDups = List.range plan.parameterCount
  positions : Numbered plan.nativePositions
  count : plan.nativePositions.length = plan.bindingCount
  pdoPositions : ∀ i < plan.parameterCount, plan.nativePositions.lookup i = some i
  pdoSlots : ∀ p ∈ plan.placeholders, p.index < plan.bindingCount
  slots : ∀ position slot, plan.bindingSlot position = some slot → slot < plan.bindingCount

def ranges (kind : Piece → Bool) (ls : List (Lexeme Byte Piece)) : List (ℕ × ℕ) :=
  ((positions 0 ls).filter fun r ↦ kind r.2.kind).map fun r ↦ (r.1, r.2.text.length)

/-- A native parameter with a name, or with a number that stands for a position. -/
def Piece.fits (legacyParser : Bool) (text : List Byte) : Piece → Bool
  | .native false _ _ _ => true
  | .native true nameStart nameLength _ =>
    match Plan.parsePosition legacyParser 0 ((text.drop nameStart).take nameLength) with
    | some (position + 1) => position ≤ zendLongMax
    | _ => false
  | _ => false

/-- The PDO placeholders are exactly those that the planner finds in the text. Of the native
ones that it finds none is left out but those whose number stands for no position. -/
structure Plan.Scanned (v2 legacyParser : Bool) (plan : Plan) : Prop where
  placeholders : plan.placeholders.map (fun p ↦ (p.offset, p.length)) =
    ranges Piece.isPdo ((planner v2).scan plan.sql)
  natives : (plan.nativePlaceholders.map fun p ↦ (p.offset, p.length)).Sublist
    (ranges Piece.isNative ((planner v2).scan plan.sql))
  fitting : ∀ r ∈ positions 0 ((planner v2).scan plan.sql), r.2.kind.fits legacyParser r.2.text →
    (r.1, r.2.text.length) ∈ plan.nativePlaceholders.map fun p ↦ (p.offset, p.length)

section Spans

variable {o : ℕ} {ls : List (Lexeme Byte Piece)} {ms : List Mark}

theorem Marks.stop_le (h : Marks o ls ms) :
    ∀ b p, some (b, p) ∈ ms → p.stop ≤ o + (source ls).length := by
  induction h with
  | nil => simp
  | plain _ _ ih =>
    intro b p hp
    rcases List.mem_cons.mp hp with hp | hp
    · cases hp
    · simpa [Nat.add_assoc] using ih b p hp
  | pdo _ _ _ ih | native _ _ _ ih =>
    intro b p hp
    rcases List.mem_cons.mp hp with hp | hp
    · cases hp
      simp [Placeholder.stop]
    · simpa [Nat.add_assoc] using ih b p hp

theorem mem_reduceOption {b : Bool} {p : Placeholder} :
    (b, p) ∈ ms.reduceOption ↔ some (b, p) ∈ ms := List.reduceOption_mem_iff

theorem Marks.inside (h : Marks o ls ms) (hls : ∀ l ∈ ls, l.text ≠ []) :
    ∀ b p, some (b, p) ∈ ms → 0 < p.length := by
  induction h with
  | nil => simp
  | plain _ _ ih =>
    obtain ⟨-, hls⟩ := List.forall_mem_cons.mp hls
    intro b p hp
    rcases List.mem_cons.mp hp with hp | hp
    · cases hp
    · exact ih hls b p hp
  | pdo _ _ _ ih | native _ _ _ ih =>
    obtain ⟨hl, hls⟩ := List.forall_mem_cons.mp hls
    intro b p hp
    rcases List.mem_cons.mp hp with hp | hp
    · cases hp
      exact List.length_pos_of_ne_nil hl
    · exact ih hls b p hp

theorem Marks.disjoint (h : Marks o ls ms) :
    ms.reduceOption.Pairwise fun o o' ↦ o.2.stop ≤ o'.2.offset := by
  induction h with
  | nil => exact List.Pairwise.nil
  | plain _ _ ih => exact ih
  | pdo _ _ hms ih | native _ _ hms ih =>
    refine List.Pairwise.cons ?_ ih
    rintro ⟨b, p⟩ hp
    exact hms.offset_le b p (mem_reduceOption.mp hp)

theorem Marks.perm (ms : List Mark) :
    ms.reduceOption.Perm ((ms.filterMap pdoOf).map (false, ·) ++
      (ms.filterMap nativeOf).map (true, ·)) := by
  induction ms with
  | nil => rfl
  | cons m ms ih =>
    rcases m with - | ⟨- | -, p⟩
    · exact ih
    · exact ih.cons _
    · exact (ih.cons _).trans List.perm_middle.symm

theorem drop_source {sql : List Byte} {l : Lexeme Byte Piece}
    (h : sql.drop o = source (l :: ls)) : sql.drop (o + l.text.length) = source ls := by
  rw [← List.drop_drop, h, source_cons, List.drop_left]

theorem text_source {sql : List Byte} {l : Lexeme Byte Piece} (h : sql.drop o = source (l :: ls))
    (index : ℕ) (numeric : Bool) :
    Placeholder.text sql ⟨o, l.text.length, index, numeric⟩ = l.text := by
  rw [Placeholder.text, h, source_cons, List.take_left]

theorem Marks.texts (h : Marks o ls ms) {sql : List Byte} (hsql : sql.drop o = source ls) :
    (ms.filterMap pdoOf).map (Placeholder.text sql) = pdoTexts ls := by
  induction h with
  | nil => rfl
  | plain hk _ ih =>
    rw [List.filterMap_cons_none rfl, ih (drop_source hsql)]
    simp [pdoTexts, hk]
  | pdo index hk _ ih =>
    rw [List.filterMap_cons_some (pdoOf_eq_some.mpr rfl), List.map_cons, text_source hsql, ih (drop_source hsql)]
    simp [pdoTexts, hk]
  | native position hk _ ih =>
    rw [List.filterMap_cons_none rfl, ih (drop_source hsql)]
    simp [pdoTexts, hk, Piece.isPdo]

theorem Marks.ranges (h : Marks o ls ms) :
    (ms.filterMap pdoOf).map (fun p ↦ (p.offset, p.length)) =
        ((positions o ls).filter fun r ↦ r.2.kind.isPdo).map (fun r ↦ (r.1, r.2.text.length)) ∧
      ((ms.filterMap nativeOf).map fun p ↦ (p.offset, p.length)).Sublist
        (((positions o ls).filter fun r ↦ r.2.kind.isNative).map fun r ↦ (r.1, r.2.text.length)) := by
  induction h with
  | nil => exact ⟨rfl, List.Sublist.refl []⟩
  | @plain o l ls ms hk _ ih =>
    obtain ⟨hpdo, hnative⟩ := ih
    rw [positions, List.filter_cons_of_neg (by simp [hk]), List.filterMap_cons_none rfl,
      List.filterMap_cons_none rfl]
    refine ⟨hpdo, hnative.trans ?_⟩
    exact ((List.sublist_cons_self _ _).filter _).map _
  | @pdo o l ls ms index hk _ ih =>
    obtain ⟨hpdo, hnative⟩ := ih
    rw [positions, List.filter_cons_of_pos (by simpa using hk), List.filterMap_cons_some (pdoOf_eq_some.mpr rfl),
      List.filterMap_cons_none rfl, List.map_cons, List.map_cons, hpdo]
    refine ⟨rfl, hnative.trans ?_⟩
    exact ((List.sublist_cons_self _ _).filter _).map _
  | @native o l ls ms numeric nameStart nameLength mark position hk _ ih =>
    obtain ⟨hpdo, hnative⟩ := ih
    rw [positions, List.filter_cons_of_neg (by simp [hk, Piece.isPdo]), List.filterMap_cons_none rfl,
      List.filterMap_cons_some (nativeOf_eq_some.mpr rfl), List.filter_cons_of_pos (by simp [hk, Piece.isNative])]
    exact ⟨hpdo, hnative.cons_cons _⟩

end Spans

section Gaps

variable {sql : List Byte} {copied : ℕ}

theorem gaps_nil : gaps sql copied [] = [sql.drop copied] := by
  have htake : (sql.drop copied).take (sql.length - copied) = sql.drop copied :=
    List.take_of_length_le (by rw [List.length_drop])
  simp [gaps, slice, htake]

theorem gaps_cons (p : Placeholder) (ps : List Placeholder) :
    gaps sql copied (p :: ps) = slice sql copied p.offset :: gaps sql p.stop ps := rfl

/-- A text is its gaps and the placeholders between them. -/
theorem weave_gaps {ps : List Placeholder} (hcopied : ∀ p ∈ ps, copied ≤ p.offset)
    (hdisjoint : ps.Pairwise fun p q ↦ p.stop ≤ q.offset) :
    sql.drop copied = weave (gaps sql copied ps) (ps.map (Placeholder.text sql)) := by
  induction ps generalizing copied with
  | nil => rw [gaps_nil, List.map_nil, weave]
  | cons p ps ih =>
    obtain ⟨hp, hps⟩ := List.pairwise_cons.mp hdisjoint
    have hle := hcopied p List.mem_cons_self
    have hslice : sql.drop copied = slice sql copied p.offset ++ sql.drop p.offset := by
      have h := List.take_append_drop (p.offset - copied) (sql.drop copied)
      rw [List.drop_drop, Nat.add_sub_cancel' hle] at h
      exact h.symm
    have htext : sql.drop p.offset = p.text sql ++ sql.drop p.stop := by
      have h := List.take_append_drop p.length (sql.drop p.offset)
      rw [List.drop_drop] at h
      exact h.symm
    rw [gaps_cons, List.map_cons, weave, ← ih hp hps, List.append_assoc, ← htext, ← hslice]

/-- The loop copies the gaps and puts the replacements between them. -/
theorem renderLoop_gaps (plan : Plan) (values : Option (List Binding)) (probe : Bool)
    (os : List (Bool × Placeholder)) : plan.renderLoop values probe copied os =
      weave (gaps plan.sql copied (os.map Prod.snd)) (os.map fun o ↦ plan.replacement values probe o.1 o.2) := by
  induction os generalizing copied with
  | nil => rw [Plan.renderLoop, List.map_nil, List.map_nil, gaps_nil, weave]
  | cons o os ih =>
    rw [Plan.renderLoop, ih, List.map_cons, List.map_cons, gaps_cons, weave]
    rfl

end Gaps

section Positions

variable {t : List (ℕ × ℕ)}

theorem addFreePosition_numbered (h : Numbered t) (p : Placeholder) :
    Numbered (Plan.addFreePosition t p) := by
  unfold Plan.addFreePosition
  split_ifs with hp
  · exact h.snoc hp.2
  · exact h

theorem addFreePosition_keeps {k i : ℕ} (hk : t.lookup k = some i) (p : Placeholder) :
    (Plan.addFreePosition t p).lookup k = some i := by
  unfold Plan.addFreePosition
  split_ifs
  · exact lookup_append_of_some hk
  · exact hk

theorem foldl_addFreePosition (ps : List Placeholder) (h : Numbered t) :
    Numbered (ps.foldl Plan.addFreePosition t) ∧
      ∀ k i, t.lookup k = some i → (ps.foldl Plan.addFreePosition t).lookup k = some i := by
  induction ps generalizing t with
  | nil => exact ⟨h, fun _ _ ↦ id⟩
  | cons p ps ih =>
    obtain ⟨hnumbered, hkeeps⟩ := ih (addFreePosition_numbered h p)
    exact ⟨hnumbered, fun k i hk ↦ hkeeps k i (addFreePosition_keeps hk p)⟩

theorem mergedPositions_numbered (plan : Plan) :
    Numbered plan.mergedPositions ∧
      ∀ i < plan.parameterCount, plan.mergedPositions.lookup i = some i := by
  have hrange := numbered_range plan.parameterCount
  obtain ⟨hnumbered, hkeeps⟩ := foldl_addFreePosition plan.nativePlaceholders hrange
  refine ⟨hnumbered, fun i hi ↦ hkeeps i i ?_⟩
  exact hrange.lookup_eq_some.mpr (List.mem_map_of_mem (List.mem_range.mpr hi))

end Positions

section Shared

variable {plan : Plan} {sql : List Byte} {ls : List (Lexeme Byte Piece)} {ms : List Mark}

theorem parameterTurn_kind (v2 : Bool) (s : List Byte) :
    (parameterTurn v2 s).1.isPdo = false := by
  unfold parameterTurn
  dsimp only
  split
  · rfl
  · split_ifs <;> rfl

theorem turn_pdo {v2 : Bool} {before : Option Byte} {s : List Byte} {k : Piece} {n : ℕ}
    (h : turn v2 before s = (k, n)) :
    (k = .named → s.head? = some colon) ∧ (k = .positional → s.head? = some question) := by
  obtain rfl : (turn v2 before s).1 = k := congrArg Prod.fst h
  cases s with
  | nil => exact ⟨Piece.noConfusion, Piece.noConfusion⟩
  | cons c s =>
    simp only [turn]
    cases triviaStep (c :: s) with
    | some step =>
      obtain ⟨trivia, n⟩ := step
      cases trivia <;> exact ⟨Piece.noConfusion, Piece.noConfusion⟩
    | none =>
      have hparameter := parameterTurn_kind v2 s
      apply tokenTurn_cases (motive := fun r ↦ (r.1 = .named → (c :: s).head? = some colon) ∧
        (r.1 = .positional → (c :: s).head? = some question))
      case parameter =>
        refine fun _ _ ↦ ⟨fun h ↦ ?_, fun h ↦ ?_⟩
        · rw [h] at hparameter
          cases hparameter
        · rw [h] at hparameter
          cases hparameter
      case named => exact fun h ↦ ⟨fun _ ↦ congrArg some h, Piece.noConfusion⟩
      case positional => exact fun h ↦ ⟨Piece.noConfusion, fun _ ↦ congrArg some h⟩
      all_goals
        intros
        exact ⟨Piece.noConfusion, Piece.noConfusion⟩

theorem scan_pdo {v2 : Bool} {l : Lexeme Byte Piece} (hl : l ∈ (planner v2).scan sql) :
    (l.kind = .named → l.text.head? = some colon) ∧
      (l.kind = .positional → l.text.head? = some question) := by
  have hlexes := (planner v2).scan_lexes sql
  obtain ⟨q, s, hstep⟩ := hlexes.exists_step hl
  obtain ⟨c, t, hct⟩ := List.exists_cons_of_ne_nil (hlexes.text_ne_nil l hl)
  have h := turn_pdo hstep
  rw [hct] at h
  simpa [hct] using h

theorem Built.text_mem (h : Built sql ls ms plan) (hls : source ls = sql) {i : ℕ}
    {p : Placeholder} (hp : plan.placeholders[i]? = some p) :
    ∃ l ∈ ls, l.kind.isPdo ∧ l.text = p.text sql := by
  have hdrop : sql.drop 0 = source ls := by rw [List.drop_zero, hls]
  have htexts := h.marks.texts hdrop
  rw [← h.placeholders] at htexts
  have hmem : p.text sql ∈ pdoTexts ls :=
    htexts ▸ List.mem_map_of_mem (List.mem_of_getElem? hp)
  obtain ⟨l, hl, htext⟩ := List.mem_map.mp hmem
  obtain ⟨hl, hpdo⟩ := List.mem_filter.mp hl
  exact ⟨l, hl, hpdo, htext⟩

/-- Occurrences of one named parameter share its index, and no others share one. -/
theorem Built.shared {v2 : Bool} (h : Built sql ((planner v2).scan sql) ms plan) {i j : ℕ}
    {p q : Placeholder} (hp : plan.placeholders[i]? = some p)
    (hq : plan.placeholders[j]? = some q) :
    p.index = q.index ↔ i = j ∨ (p.text sql).head? = some colon ∧ p.text sql = q.text sql := by
  have hsource := (planner v2).source_scan sql
  obtain ⟨l, hl, hpdo, htext⟩ := h.text_mem hsource hp
  obtain ⟨hused, hkind⟩ := h.numbering.style l hl hpdo
  have hhead := scan_pdo hl
  rw [htext, hkind] at hhead
  cases hstyle : plan.style with
  | none => exact absurd hstyle hused
  | named =>
    have hnamed := h.numbering.named hstyle
    have hdrop : sql.drop 0 = source ((planner v2).scan sql) := by rw [List.drop_zero, hsource]
    rw [← h.marks.texts hdrop, ← h.placeholders, List.map_map] at hnamed
    have hlookup {k : ℕ} {r : Placeholder} (hr : plan.placeholders[k]? = some r) :
        some r.index = plan.names.lookup (r.text sql) := by
      have heq := congrArg (·[k]?) hnamed
      simpa [hr] using heq
    have hcolon := hhead.1 (by rw [hstyle]; rfl)
    simp only [hcolon, true_and]
    constructor
    · intro heq
      refine .inr (h.numbering.names.lookup_inj (hlookup hp).symm ?_)
      rw [heq]
      exact (hlookup hq).symm
    · rintro (rfl | heq)
      · rw [Option.some.inj (hp.symm.trans hq)]
      · exact Option.some.inj ((hlookup hp).trans (heq ▸ (hlookup hq).symm))
  | positional =>
    have hindices := h.numbering.positional hstyle
    have hindex {k : ℕ} {r : Placeholder} (hr : plan.placeholders[k]? = some r) : r.index = k := by
      have heq := congrArg (·[k]?) hindices
      obtain ⟨hk, -⟩ := List.getElem?_eq_some_iff.mp hr
      have hlen : plan.placeholders.length = plan.parameterCount := by
        simpa using congrArg List.length hindices
      simpa [hr, List.getElem?_range (hlen ▸ hk)] using heq
    have hquestion := hhead.2 (by rw [hstyle]; rfl)
    have hne : question ≠ colon := by decide
    rw [hindex hp, hindex hq, hquestion]
    simp [hne]

end Shared

theorem Built.occurrences {sql : List Byte} {ls : List (Lexeme Byte Piece)} {ms : List Mark}
    {plan : Plan} (h : Built sql ls ms plan) (hls : ∀ l ∈ ls, l.text ≠ []) (b : Bool) :
    ∃ ms', Marks 0 ls ms' ∧ ms'.filterMap pdoOf = plan.placeholders ∧
      ms'.filterMap nativeOf = (if b then plan.nativePlaceholders else []) ∧
      plan.finish.occurrences b = ms'.reduceOption := by
  cases b with
  | true =>
    refine ⟨ms, h.marks, h.placeholders.symm, h.natives.symm, ?_⟩
    rw [← h.marks.merge_eq hls, ← h.placeholders, ← h.natives]
    rfl
  | false =>
    have hpdo : pdoOf ∘ withoutNative = pdoOf := by
      funext m
      rcases m with - | ⟨- | -, p⟩ <;> rfl
    have hnative : nativeOf ∘ withoutNative = fun _ ↦ none := by
      funext m
      rcases m with - | ⟨- | -, p⟩ <;> rfl
    have hpdos : (ms.map withoutNative).filterMap pdoOf = plan.placeholders := by
      rw [List.filterMap_map, hpdo, h.placeholders]
    have hnatives : (ms.map withoutNative).filterMap nativeOf = [] := by
      rw [List.filterMap_map, hnative, List.filterMap_none]
    refine ⟨ms.map withoutNative, h.marks.withoutNative, hpdos, hnatives, ?_⟩
    rw [← h.marks.withoutNative.merge_eq hls, hpdos, hnatives]
    rfl

section Fitting

variable {plan plan' : Plan} {seen seen' : Bool} {r : ℕ × Lexeme Byte Piece} {offset length : ℕ} {name : List Byte}
  {numeric : Bool} {mark : Option Byte}

theorem addNativePlaceholder_legacyParser :
    (plan.addNativePlaceholder offset length name numeric mark).legacyParser = plan.legacyParser := by
  unfold Plan.addNativePlaceholder
  generalize (if numeric then plan.numericPosition name
    else some (plan.nativeParameterCount, false)) = found
  cases found with
  | none => rfl
  | some r =>
    dsimp only
    cases (if r.2 then none else plan.nativeNames.lookup (Plan.nativeKey mark name)) with
    | some old => rfl
    | none =>
      unfold Plan.addNativePosition Plan.addNativeName
      dsimp only [Plan.recordNative]
      split <;> split_ifs <;> rfl

theorem addNativePlaceholder_found {found : ℕ × Bool}
    (hfound : (if numeric then plan.numericPosition name else some (plan.nativeParameterCount, false)) = some found) :
    (offset, length) ∈ (plan.addNativePlaceholder offset length name numeric mark).nativePlaceholders.map
      fun p ↦ (p.offset, p.length) := by
  unfold Plan.addNativePlaceholder
  rw [hfound]
  dsimp only
  cases (if found.2 then none else plan.nativeNames.lookup (Plan.nativeKey mark name)) with
  | some old => simp [Plan.recordNative]
  | none => simp [Plan.recordNative]

theorem numericPosition_of_parse {position : ℕ} (hparse : Plan.parsePosition plan.legacyParser 0 name = some (position + 1))
    (hle : position ≤ zendLongMax) : plan.numericPosition name = some (position, false) := by
  unfold Plan.numericPosition
  rw [hparse]
  exact if_neg (Nat.not_lt.mpr hle)

theorem addPlaceholder_natives {text : List Byte} {style : Style}
    (h : plan.addPlaceholder offset text style = .ok plan') :
    plan'.legacyParser = plan.legacyParser ∧ plan'.nativePlaceholders = plan.nativePlaceholders := by
  obtain ⟨-, ⟨index, -, rfl⟩ | ⟨-, rfl⟩⟩ := Plan.addPlaceholder_cases h
  · exact ⟨rfl, rfl⟩
  · exact ⟨rfl, rfl⟩

/-- Reading a piece keeps the native placeholders, and adds the one that the piece is. -/
theorem addPiece_recorded (hadd : Plan.addPiece (plan, seen) r = .ok (plan', seen')) :
    plan'.legacyParser = plan.legacyParser ∧ plan.nativePlaceholders ⊆ plan'.nativePlaceholders ∧
      (r.2.kind.fits plan.legacyParser r.2.text →
        (r.1, r.2.text.length) ∈ plan'.nativePlaceholders.map fun p ↦ (p.offset, p.length)) := by
  obtain ⟨offset, l⟩ := r
  unfold Plan.addPiece at hadd
  dsimp only at hadd ⊢
  cases hk : l.kind with
  | named =>
    rw [hk] at hadd
    obtain ⟨plan₁, hplan₁, heq⟩ := bind_eq_ok.mp hadd
    cases heq
    obtain ⟨hlegacy, hnatives⟩ := addPlaceholder_natives hplan₁
    exact ⟨hlegacy, hnatives ▸ List.Subset.refl _, nofun⟩
  | positional =>
    rw [hk] at hadd
    obtain ⟨plan₁, hplan₁, heq⟩ := bind_eq_ok.mp hadd
    cases heq
    obtain ⟨hlegacy, hnatives⟩ := addPlaceholder_natives hplan₁
    exact ⟨hlegacy, hnatives ▸ List.Subset.refl _, nofun⟩
  | native numeric nameStart nameLength mark =>
    rw [hk] at hadd
    cases hadd
    refine ⟨addNativePlaceholder_legacyParser, ?_, fun hfits ↦ ?_⟩
    · obtain ⟨-, hsame | ⟨position, happend⟩⟩ := addNativePlaceholder_step
        { plan with
          hasDollarParameters := true
          hasNamedDollarParameters := plan.hasNamedDollarParameters || !numeric }
        offset l.text.length ((l.text.drop nameStart).take nameLength) numeric mark
      · rw [hsame]
        exact List.Subset.refl _
      · rw [happend]
        exact List.subset_append_left _ _
    · cases numeric with
      | false => exact addNativePlaceholder_found rfl
      | true =>
        unfold Piece.fits at hfits
        dsimp only at hfits
        split at hfits
        · next position hparse =>
          exact addNativePlaceholder_found (numericPosition_of_parse hparse (of_decide_eq_true hfits))
        · cases hfits
  | _ =>
    rw [hk] at hadd
    cases hadd
    exact ⟨rfl, List.Subset.refl _, nofun⟩

theorem run_recorded {rs : List (ℕ × Lexeme Byte Piece)} {state : Plan × Bool}
    (hrun : rs.foldlM Plan.addPiece (plan, seen) = .ok state) :
    state.1.legacyParser = plan.legacyParser ∧ plan.nativePlaceholders ⊆ state.1.nativePlaceholders ∧
      ∀ r ∈ rs, r.2.kind.fits plan.legacyParser r.2.text →
        (r.1, r.2.text.length) ∈ state.1.nativePlaceholders.map fun p ↦ (p.offset, p.length) := by
  induction rs generalizing plan seen with
  | nil =>
    cases hrun
    exact ⟨rfl, List.Subset.refl _, fun r hr ↦ absurd hr List.not_mem_nil⟩
  | cons r rs ih =>
    rw [List.foldlM_cons] at hrun
    obtain ⟨⟨plan₁, seen₁⟩, hadd, hrun⟩ := bind_eq_ok.mp hrun
    obtain ⟨hlegacy, hsub, hfirst⟩ := addPiece_recorded hadd
    obtain ⟨hlegacy', hsub', hrest⟩ := ih hrun
    refine ⟨hlegacy'.trans hlegacy, List.Subset.trans hsub hsub', fun q hq hfits ↦ ?_⟩
    rcases List.mem_cons.mp hq with rfl | hq
    · exact List.map_subset _ hsub' (hfirst hfits)
    · exact hrest q hq (by rwa [hlegacy])

end Fitting
theorem create_sql {v2 legacyParser : Bool} {sql : List Byte} {plan : Plan}
    (h : Plan.create v2 legacyParser sql = .ok plan) : plan.sql = sql := by
  obtain ⟨state, ms, hbuilt, rfl⟩ := create_built h
  exact hbuilt.sql

theorem create_fitting {v2 legacyParser : Bool} {sql : List Byte} {plan : Plan}
    (h : Plan.create v2 legacyParser sql = .ok plan) :
    ∀ r ∈ positions 0 ((planner v2).scan sql), r.2.kind.fits legacyParser r.2.text →
      (r.1, r.2.text.length) ∈ plan.nativePlaceholders.map fun p ↦ (p.offset, p.length) := by
  unfold Plan.create at h
  split_ifs at h
  obtain ⟨state, hrun, heq⟩ := bind_eq_ok.mp h
  cases heq
  exact (run_recorded hrun).2.2

theorem create_scanned {v2 legacyParser : Bool} {sql : List Byte} {plan : Plan}
    (h : Plan.create v2 legacyParser sql = .ok plan) : plan.Scanned v2 legacyParser := by
  have hsql := create_sql h
  have hfitting := create_fitting h
  obtain ⟨state, ms, hbuilt, rfl⟩ := create_built h
  obtain ⟨hpdo, hnative⟩ := hbuilt.marks.ranges
  rw [← hbuilt.placeholders] at hpdo
  rw [← hbuilt.natives] at hnative
  constructor
  · rw [hsql]
    exact hpdo
  · rw [hsql]
    exact hnative
  · rw [hsql]
    exact hfitting

theorem create_plan_wellFormed {v2 legacyParser : Bool} {sql : List Byte} {plan : Plan}
    (h : Plan.create v2 legacyParser sql = .ok plan) : plan.WellFormed := by
  obtain ⟨state, ms, hbuilt, rfl⟩ := create_built h
  have hsource := (planner v2).source_scan sql
  have hls := ((planner v2).scan_lexes sql).text_ne_nil
  have hpositions : Numbered state.finish.nativePositions ∧
      ∀ i < state.parameterCount, state.finish.nativePositions.lookup i = some i := by
    by_cases hcount : state.parameterCount = 0
    · simpa [Plan.finish, hcount] using hbuilt.numbered
    · simpa [Plan.finish, hcount] using mergedPositions_numbered state
  have hlookup {position slot : ℕ} (hs : state.finish.nativePositions.lookup position = some slot) :
      slot < state.finish.bindingCount := hpositions.1.lookup_lt hs
  have hsql : state.finish.sql = sql := hbuilt.sql
  have hdisjoint (b : Bool) : (state.finish.occurrences b).Pairwise fun o o' ↦ o.2.stop ≤ o'.2.offset := by
    obtain ⟨ms', hmarks, -, -, hoccurrences⟩ := hbuilt.occurrences hls b
    rw [hoccurrences]
    exact hmarks.disjoint
  refine {
    inside := ?_
    disjoint := hdisjoint
    merged := ?_
    source := ?_
    rendered := fun values probe ↦ renderLoop_gaps state.finish values probe _
    shared := ?_
    order := hbuilt.numbering.order
    positions := hpositions.1
    count := rfl
    pdoPositions := hpositions.2
    pdoSlots := ?_
    slots := ?_ }
  · rintro b ⟨native, p⟩ hp
    obtain ⟨ms', hmarks, -, -, hoccurrences⟩ := hbuilt.occurrences hls b
    rw [hoccurrences, mem_reduceOption] at hp
    have hstop := hmarks.stop_le native p hp
    rw [hsource, Nat.zero_add] at hstop
    exact ⟨hmarks.inside hls native p hp, hsql ▸ hstop⟩
  · have hmerge := hbuilt.marks.merge_eq hls
    rw [← hbuilt.placeholders, ← hbuilt.natives] at hmerge
    have hperm := Marks.perm ms
    rw [← hbuilt.placeholders, ← hbuilt.natives, ← hmerge] at hperm
    exact hperm
  · intro b
    have hpairwise : ((state.finish.occurrences b).map Prod.snd).Pairwise fun p q ↦ p.stop ≤ q.offset :=
      List.pairwise_map.mpr (hdisjoint b)
    have hweave := @weave_gaps state.finish.sql 0 _ (fun p _ ↦ Nat.zero_le p.offset) hpairwise
    rw [List.map_map] at hweave
    exact hweave
  · intro i j p q hp hq
    rw [hsql]
    exact hbuilt.shared hp hq
  · intro p hp
    have hp : p.index ∈ state.placeholders.map (·.index) := List.mem_map_of_mem hp
    rw [← List.mem_eraseDups, hbuilt.numbering.order, List.mem_range] at hp
    exact hlookup (hpositions.2 p.index hp)
  · intro position slot hs
    unfold Plan.bindingSlot at hs
    split_ifs at hs
    exact hlookup hs

/-- Every plan that `plan_create` returns is the one of its text, well formed, and its
placeholders are those of the text. -/
theorem create_wellFormed {v2 legacyParser : Bool} {sql : List Byte} {plan : Plan}
    (h : Plan.create v2 legacyParser sql = .ok plan) :
    plan.sql = sql ∧ plan.Scanned v2 legacyParser ∧ plan.WellFormed :=
  ⟨create_sql h, create_scanned h, create_plan_wellFormed h⟩

/-- The plan of a text with named parameters, one of them twice, and native ones
around them. -/
def examplePlan : Plan where
  sql := ascii "SELECT :a, $2, :b + :a, $x, $7"
  legacyParser := false
  names := [(ascii ":a", 0), (ascii ":b", 1)]
  nativeNames := [(ascii "2", 1), (ascii "x", 1), (ascii "7", 6)]
  nativePositions := [(0, 0), (1, 1), (6, 2)]
  placeholders := [⟨7, 2, 0, true⟩, ⟨15, 2, 1, true⟩, ⟨20, 2, 0, true⟩]
  nativePlaceholders := [⟨11, 2, 1, true⟩, ⟨24, 2, 1, false⟩, ⟨28, 2, 6, true⟩]
  style := .named
  parameterCount := 2
  bindingCount := 3
  nativeParameterCount := 2
  nativeNextPosition := 7
  hasDollarParameters := true
  hasNamedDollarParameters := true

theorem examplePlan_wellFormed : examplePlan.sql = ascii "SELECT :a, $2, :b + :a, $x, $7" ∧
    examplePlan.Scanned false false ∧ examplePlan.WellFormed :=
  @create_wellFormed false false (ascii "SELECT :a, $2, :b + :a, $x, $7") examplePlan (by rfl)

end PdoDuckdb.Sql
