import PdoDuckdb.Sql.Literals

namespace PdoDuckdb.Sql

open Byte Library.Scanning

/-- A piece of the source and what is written in its place, if anything is. -/
abbrev Splice := Lexeme Byte Piece × Option Bound

def Splice.pieces : Splice → List (Lexeme Byte Piece)
  | (l, none) => [l]
  | (_, some b) => blank :: (b.pieces ++ [blank])

/-- No value stands behind a `$` without a name, and no `:` that a value has come before
is left with a name behind it. -/
def Parted : Bool → List Splice → Prop
  | _, [] => True
  | _, (_, some _) :: xs => Parted true xs
  | spliced, (l, none) :: xs =>
    ¬(l.kind = .dollar none ∧ xs.head?.any (·.2.isSome)) ∧
      ¬(spliced ∧ l.text = [colon] ∧ xs.head?.any fun x ↦ x.1.text.head?.any parameterChar) ∧
      Parted false xs

namespace Plan

def slot (plan : Plan) (native : Bool) (p : Placeholder) : Option ℕ :=
  if native then
    if plan.parameterCount ≠ 0 ∧ ¬p.numeric then none else plan.bindingSlot p.index
  else some p.index

def written (plan : Plan) (values : List Binding) (slot : Option ℕ) (p : Placeholder) : List Byte :=
  match slot.bind fun slot ↦ values[slot]? with
  | some ⟨some value, quote, blob⟩ => [space] ++ (if quote then quoteBytes value blob else value) ++ [space]
  | _ => (plan.sql.drop p.offset).take p.length

def value (plan : Plan) (bound : List (Option Bound)) (o : Bool × Placeholder) : Option Bound :=
  (plan.slot o.1 o.2).bind fun slot ↦ bound[slot]?.join

def spliceAt (plan : Plan) (bound : List (Option Bound)) (x : ℕ × Lexeme Byte Piece) : Splice :=
  (x.2, ((plan.occurrences true).find? (·.2.offset == x.1)).bind (plan.value bound))

def splices (plan : Plan) (bound : List (Option Bound)) (ls : List (Lexeme Byte Piece)) : List Splice :=
  (positions 0 ls).map (plan.spliceAt bound)

end Plan

section Neighbours

variable {v2 : Bool} {before before' : Option Byte} {k : Piece} {t s s' : List Byte} {l m : Lexeme Byte Piece}

theorem Fits.behind (h : Fits v2 before k t s) (hk : k ≠ .named)
    (hcolon : t = [colon] → s.head?.any parameterChar → before'.any identifierContinue) :
    Fits v2 before' k t s := by
  cases k with
  | named => exact absurd rfl hk
  | other => exact ⟨h.1, h.2.1, fun ht ↦ ⟨(h.2.2 ht).1, hcolon ht⟩⟩
  | _ => exact h

theorem fits_space (hpdo : l.kind.isPdo = false) (hmark : ∀ a ∈ l.kind.mark, a = quote ∨ identifierQuote v2 a) :
    Fits v2 before l.kind l.text (space :: s) ↔ l.kind ≠ .dollar none := by
  have hhead {a : Byte} (ha : space ≠ a) : (space :: s).head? ≠ some a := fun h ↦ ha (Option.some.inj h)
  have hmark : ∀ a ∈ l.kind.mark, (space :: s).head? ≠ some a := by
    have hclass : ∀ a : Byte, a = quote ∨ identifierQuote true a → space ≠ a := forall_byte (by decide)
    exact fun a ha ↦ hhead (hclass a ((hmark a ha).imp_right identifierQuote_true))
  have hdollar : (space :: s).head? ≠ some dollar := hhead (by decide)
  have hname : ¬(space :: s).head?.any nameChar := Bool.false_ne_true
  have hblank : triviaStep (space :: s) ≠ none := by
    rw [triviaStep_blank (by decide) s]
    exact Option.some_ne_none _
  have hnumber : numberLength true (space :: s) = 0 :=
    numberLength_eq_zero.mpr ⟨by decide, fun h ↦ absurd h.1 (by decide)⟩
  obtain ⟨kind, text⟩ := l
  have hfits (h : Fits v2 before kind text (space :: s)) (hk : kind ≠ .dollar none) :
      Fits v2 before kind text (space :: s) ↔ kind ≠ .dollar none := iff_of_true h hk
  cases kind with
  | named | positional => cases hpdo
  | blank | comment | semicolon | dollarString => exact hfits trivial Piece.noConfusion
  | escapeString => exact hfits (hhead (by decide)) Piece.noConfusion
  | cast => exact hfits (hhead (by decide)) Piece.noConfusion
  | questions => exact hfits (hhead (by decide)) Piece.noConfusion
  | quoted mark => exact hfits (hmark mark rfl) Piece.noConfusion
  | identifier => exact hfits ⟨Bool.false_ne_true, fun _ _ ↦ hhead (by decide)⟩ Piece.noConfusion
  | dollar mark =>
    cases mark with
    | none => exact iff_of_false (fun h ↦ hblank h.1.1) (not_not.mpr rfl)
    | some mark => exact hfits ⟨hmark mark rfl, fun _ ↦ hdollar⟩ (by simp)
  | native numeric nameStart nameLength mark =>
    apply hfits _ Piece.noConfusion
    refine ⟨?_, fun _ ↦ hdollar⟩
    cases numeric with
    | true => exact hnumber
    | false =>
      cases mark with
      | none => exact hname
      | some mark => exact hmark mark rfl
  | other =>
    have hcolon : (space :: s).head? ≠ some colon := hhead (by decide)
    exact hfits ⟨fun _ ↦ hhead (by decide), fun _ ↦ hhead (by decide), fun _ ↦ ⟨hcolon, fun h ↦ absurd h Bool.false_ne_true⟩⟩ Piece.noConfusion

theorem kind_colon (hl : l.text = [colon]) (h : turn v2 before (l.text ++ s) = (l.kind, l.text.length)) :
    l.kind = .other := by
  have hnone : triviaStep (colon :: s) = none :=
    triviaStep_plain (by decide) (by decide) (by decide) (by decide) s
  rw [hl, List.singleton_append, turn, hnone] at h
  dsimp only at h
  rw [tokenTurn_colon] at h
  split_ifs at h with hcolon hname
  · cases s with
    | nil => cases hcolon
    | cons c s =>
      obtain rfl := Option.some.inj hcolon
      simp at h
  · cases s with
    | nil => cases hname.1
    | cons c s =>
      have hc : parameterChar c := hname.1
      simp [hc] at h
  · exact (Prod.mk.inj h).1.symm

/-- What a piece kept behind another says of the byte before the two. -/
theorem fits_kept {r r' : List Byte} {q q' : Option Byte} (hne : m.text ≠ []) (hpdo : l.kind.isPdo = false)
    (hstep : turn v2 before (l.text ++ (m.text ++ r)) = (l.kind, l.text.length))
    (hfits : Fits v2 before l.kind l.text (m.text ++ r))
    (hturn : turn v2 q (m.text ++ r) = (m.kind, m.text.length))
    (hturn' : turn v2 q' (m.text ++ r') = (m.kind, m.text.length)) :
    Fits v2 before' l.kind l.text (m.text ++ r') ↔
      (l.text = [colon] → m.text.head?.any parameterChar → before'.any identifierContinue) := by
  have hk : l.kind ≠ .named := fun h ↦ by simp [h, Piece.isPdo] at hpdo
  have hhead (r : List Byte) : (m.text ++ r).head? = m.text.head? := List.head?_append_of_ne_nil m.text hne
  constructor
  · intro h hl
    rw [kind_colon hl hstep] at h
    rw [← hhead r']
    exact (h.2.2 hl).2
  · intro hcolon
    have hkept : Fits v2 before l.kind l.text (m.text ++ r') := by
      apply hfits.congr ((hhead r).trans (hhead r').symm) _ _ id hk
      · intro hnone
        have htoken := @turn_of_triviaStep v2 q _ hnone
        rw [hturn] at htoken
        exact triviaStep_of_turn hturn' htoken.1 htoken.2
      · intro hzero
        rw [numberLength_of_turn hne hturn']
        exact (numberLength_of_turn hne hturn).mp hzero
    exact Fits.behind hkept hk (by rwa [hhead])

end Neighbours

section Run

variable {v2 spliced : Bool} {before before' : Option Byte} {xs : List Splice}

/-- What the planner's pieces are when they are replaced and when they are not. -/
structure Splice.Sound (x : Splice) : Prop where
  kept : x.2 = none → x.1.kind.isPdo = false
  replaced : x.2.isSome → x.1.text.head? ∈ [some colon, some question, some dollar]

theorem Splice.Sound.head {x : Splice} (h : x.Sound) {c : Byte} (hc : x.1.text.head? = some c)
    (hclass : isLineEnd c ∨ parameterChar c) : x.2 = none := by
  have hsigns : ∀ c : Byte, isLineEnd c ∨ parameterChar c → some c ∉ [some colon, some question, some dollar] :=
    forall_byte (by decide)
  rw [← Option.not_isSome_iff_eq_none]
  exact fun hsome ↦ hsigns c hclass (hc ▸ h.replaced hsome)

theorem source_splice (x : Splice) (h : x.1.text ≠ []) : source x.pieces ≠ [] := by
  obtain ⟨l, b⟩ := x
  cases b with
  | none => simpa [Splice.pieces] using h
  | some b => simp [Splice.pieces, blank]

/-- A value leaves the scanner behind a blank. -/
theorem lexes_value {b : Bound} {ls : List (Lexeme Byte Piece)} :
    (planner v2).Lexes before (blank :: (b.pieces ++ [blank]) ++ ls) ↔ (planner v2).Lexes (some space) ls := by
  constructor
  · intro h
    have hrest := h.append
    have hlast : after before (source (blank :: (b.pieces ++ [blank]))) = some space := by
      rw [source_cons, source_append, after_append, after_append]
      rfl
    rwa [hlast] at hrest
  · intro h
    have hvalue := stands_pieces b rfl rfl (stands_blank h)
    have hstands := stands_blank (hvalue (some space)) before
    simpa using hstands

theorem endsLines_splices {y : Splice} {ys : List Splice} (hne : y.1.text ≠ []) (hy : y.Sound) :
    EndsLines (source ((y :: ys).map Prod.fst)) (source ((y :: ys).flatMap Splice.pieces)) := by
  intro hline
  obtain ⟨⟨kind, text⟩, b⟩ := y
  obtain ⟨c, t, rfl⟩ := List.exists_cons_of_ne_nil hne
  obtain rfl : b = none := hy.head rfl (.inl hline)
  rfl

/-- What may follow a piece that is kept, once the splices behind it are scanned. -/
theorem fits_splices {l : Lexeme Byte Piece} {y : Splice} {ys : List Splice} {q q' : Option Byte}
    (hpdo : l.kind.isPdo = false) (hne : y.1.text ≠ []) (hy : y.Sound)
    (hturn : turn v2 before (l.text ++ source ((y :: ys).map Prod.fst)) = (l.kind, l.text.length))
    (hfits : Fits v2 before l.kind l.text (source ((y :: ys).map Prod.fst)))
    (hyturn : turn v2 q (y.1.text ++ source (ys.map Prod.fst)) = (y.1.kind, y.1.text.length))
    (hlexes : (planner v2).Lexes q' ((y :: ys).flatMap Splice.pieces))
    (hspliced : spliced → before' = some space)
    (hkept : ¬spliced → before.any identifierContinue → before'.any identifierContinue) :
    Fits v2 before' l.kind l.text (source ((y :: ys).flatMap Splice.pieces)) ↔
      ¬(l.kind = .dollar none ∧ y.2.isSome) ∧ ¬(spliced ∧ l.text = [colon] ∧ y.1.text.head?.any parameterChar) := by
  have hmark := turn_mark v2 before (l.text ++ source ((y :: ys).map Prod.fst))
  rw [hturn] at hmark
  obtain ⟨m, b⟩ := y
  cases b with
  | some b =>
    have hname : ¬m.text.head?.any parameterChar := by
      intro hname
      obtain ⟨c, t, ht⟩ := List.exists_cons_of_ne_nil hne
      have hhead : m.text.head? = some c := congrArg List.head? ht
      rw [hhead] at hname
      exact absurd (hy.head hhead (.inr hname)) (Option.some_ne_none b)
    refine (fits_space hpdo hmark).trans ?_
    simp [hname]
  | none =>
    cases hlexes with
    | cons _ hmturn _ =>
      refine (fits_kept hne hpdo hturn hfits hyturn hmturn).trans ?_
      have hspace : ¬(some space).any identifierContinue := by decide
      by_cases hs : spliced
      · rw [hspliced hs]
        simp [hs, hspace]
      · have hbefore := (fits_kept hne hpdo hturn hfits hyturn hyturn).mp hfits
        refine iff_of_true (fun hl hhead ↦ hkept hs (hbefore hl hhead)) ?_
        simp [hs]

/-- The pieces of the source with values in them are scanned one by one exactly where the
values are parted from their neighbours. -/
theorem lexes_splices (hls : (planner v2).Lexes before (xs.map Prod.fst)) (hxs : ∀ x ∈ xs, x.Sound)
    (hspliced : spliced → before' = some space)
    (hkept : ¬spliced → before.any identifierContinue → before'.any identifierContinue) :
    (planner v2).Lexes before' (xs.flatMap Splice.pieces) ↔ Parted spliced xs := by
  induction xs generalizing before before' spliced with
  | nil => exact iff_of_true (.nil before') trivial
  | cons x xs ih =>
    obtain ⟨l, b⟩ := x
    have hx := hxs _ List.mem_cons_self
    have htail : ∀ x ∈ xs, x.Sound := fun x hx ↦ hxs x (List.mem_cons_of_mem _ hx)
    cases hls with
    | cons hne hstep hlexes =>
      have hturn : turn v2 before (l.text ++ source (xs.map Prod.fst)) = (l.kind, l.text.length) := hstep
      rw [List.flatMap_cons]
      cases b with
      | some b => exact lexes_value.trans (@ih true _ (some space) hlexes htail (fun _ ↦ rfl) (absurd rfl))
      | none =>
        have hpdo : l.kind.isPdo = false := hx.kept rfl
        have hrest := @ih false _ (after before' l.text) hlexes htail Bool.noConfusion fun _ h ↦ after_of_ne_nil hne ▸ h
        cases xs with
        | nil =>
          have hk : l.kind ≠ .named := fun h ↦ by simp [h, Piece.isPdo] at hpdo
          have hlast := @turn_last v2 before before' l.kind l.text hne (by simpa using hturn) hk
          have hlast' : turn v2 before' (l.text ++ []) = (l.kind, l.text.length) := by
            rw [List.append_nil]
            exact hlast
          exact iff_of_true (.cons hne hlast' (.nil _)) ⟨by simp, by simp, trivial⟩
        | cons y ys =>
          obtain ⟨hyne, hyturn⟩ : y.1.text ≠ [] ∧
              turn v2 (after before l.text) (y.1.text ++ source (ys.map Prod.fst)) = (y.1.kind, y.1.text.length) := by
            cases hlexes with
            | cons hne hstep _ => exact ⟨hne, hstep⟩
          have hs : source ((y :: ys).map Prod.fst) ≠ [] := by simp [hyne]
          have hs' : source ((y :: ys).flatMap Splice.pieces) ≠ [] := by
            rw [List.flatMap_cons, source_append]
            exact List.append_ne_nil_of_left_ne_nil (source_splice y hyne) _
          have hy := htail y List.mem_cons_self
          obtain ⟨hfits, hstable⟩ := turn_stable hne hs hturn
          rw [Parted, ← hrest]
          constructor
          · intro hlexes'
            cases hlexes' with
            | cons _ hturn' hlexes' =>
              have hfits' := (turn_stable hne hs' hturn').1
              obtain ⟨hdollar, hcolon⟩ :=
                (fits_splices hpdo hyne hy hturn hfits hyturn hlexes' hspliced hkept).mp hfits'
              exact ⟨hdollar, hcolon, hlexes'⟩
          · rintro ⟨hdollar, hcolon, hlexes'⟩
            have hfits' := (fits_splices hpdo hyne hy hturn hfits hyturn hlexes' hspliced hkept).mpr ⟨hdollar, hcolon⟩
            exact .cons hne (hstable before' _ hs' (endsLines_splices hyne hy) hfits') hlexes'

end Run

section Plan

variable {o : ℕ} {ls : List (Lexeme Byte Piece)} {ms : List Mark} {plan : Plan} {bound : List (Option Bound)}

theorem Marks.length_eq (h : Marks o ls ms) : ls.length = ms.length := by
  induction h with
  | nil => rfl
  | plain _ _ ih | pdo _ _ _ ih | native _ _ _ ih => exact congrArg (· + 1) ih

theorem Marks.find?_none (h : Marks o ls ms) {os : List (Bool × Placeholder)} {o' : ℕ}
    (hos : ∀ p ∈ os, p.2.offset < o') (ho : o' < o) :
    (os ++ ms.reduceOption).find? (·.2.offset == o') = none := by
  apply List.find?_eq_none.mpr
  intro p hp
  rcases List.mem_append.mp hp with hp | hp
  · simpa using (hos p hp).ne
  · have hle := h.offset_le p.1 p.2 (mem_reduceOption.mp hp)
    simpa using (ho.trans_le hle).ne'

theorem find?_mark {os ps : List (Bool × Placeholder)} {p : Bool × Placeholder} (hp : p.2.offset = o)
    (hos : ∀ q ∈ os, q.2.offset < o) : (os ++ p :: ps).find? (·.2.offset == o) = some p := by
  have hnone : os.find? (·.2.offset == o) = none :=
    List.find?_eq_none.mpr fun q hq ↦ by simpa using (hos q hq).ne
  rw [List.find?_append, hnone, List.find?_cons_of_pos (by simpa using hp)]
  rfl

/-- The marks of the pieces are found by the offsets of the pieces. -/
theorem Marks.found (h : Marks o ls ms) (hls : ∀ l ∈ ls, l.text ≠ []) {os : List (Bool × Placeholder)}
    (hos : ∀ p ∈ os, p.2.offset < o) :
    (positions o ls).map (fun x ↦ (x.2, (os ++ ms.reduceOption).find? (·.2.offset == x.1))) = ls.zip ms := by
  have hgrow {l : Lexeme Byte Piece} {o : ℕ} {os : List (Bool × Placeholder)} (hos : ∀ p ∈ os, p.2.offset < o) :
      ∀ p ∈ os, p.2.offset < o + l.text.length := fun p hp ↦ (hos p hp).trans_le (Nat.le_add_right _ _)
  induction h generalizing os with
  | nil => rfl
  | @plain o l ls ms _ hms ih =>
    obtain ⟨hl, hls⟩ := List.forall_mem_cons.mp hls
    have hlen := List.length_pos_of_ne_nil hl
    have hnone := hms.find?_none hos (Nat.lt_add_of_pos_right hlen)
    rw [positions, List.map_cons, List.reduceOption_cons_of_none, hnone, ih hls (hgrow hos)]
    rfl
  | @pdo o l ls ms index _ hms ih | @native o l ls ms _ _ _ _ index _ hms ih =>
    obtain ⟨hl, hls⟩ := List.forall_mem_cons.mp hls
    have hlen := List.length_pos_of_ne_nil hl
    rw [positions, List.map_cons, List.reduceOption_cons_of_some, find?_mark (o := o) rfl hos, List.append_cons, ih hls]
    · rfl
    · intro p hp
      rcases List.mem_append.mp hp with hp | hp
      · exact hgrow hos p hp
      · rw [List.mem_singleton.mp hp]
        exact Nat.lt_add_of_pos_right hlen

theorem getElem?_bindings (slot : ℕ) :
    (bindings bound)[slot]? = bound[slot]?.map fun b ↦ (b.map Bound.binding).getD {} := List.getElem?_map

/-- A placeholder with a value is replaced by its text between blanks, any other stays. -/
theorem replacement_bindings (native : Bool) (p : Placeholder) :
    plan.replacement (some (bindings bound)) false native p =
      (plan.value bound (native, p)).elim (p.text plan.sql) fun b ↦ space :: (b.text ++ [space]) := by
  have hvalue : plan.value bound (native, p) = (plan.slot native p).bind fun slot ↦ bound[slot]?.join := rfl
  have hslot : plan.replacement (some (bindings bound)) false native p =
      plan.written (bindings bound) (plan.slot native p) p := rfl
  rw [hvalue, hslot, Plan.written]
  cases plan.slot native p with
  | none => rfl
  | some slot =>
    rw [Option.bind_some, Option.bind_some, getElem?_bindings]
    rcases bound[slot]? with - | - | b
    · rfl
    · rfl
    · cases b <;> rfl

/-- A complete assignment has a value for every PDO placeholder. -/
theorem value_pdo {text : List Byte} (hplan : plan.WellFormed) (h : plan.expand (bindings bound) = .ok text)
    {p : Placeholder} (hp : p ∈ plan.placeholders) : (plan.value bound (false, p)).isSome := by
  have hindex : p.index < plan.parameterCount := by
    rw [← List.mem_range, ← hplan.order, List.mem_eraseDups]
    exact List.mem_map_of_mem hp
  unfold Plan.expand at h
  split_ifs at h with hcount hmissing
  have hvalue := List.any_eq_false.mp (Bool.eq_false_iff.mpr hmissing) p.index (List.mem_range.mpr hindex)
  rw [getElem?_bindings] at hvalue
  change (bound[p.index]?.join).isSome
  rcases hslot : bound[p.index]? with - | - | b
  · simp [hslot] at hvalue
  · simp [hslot] at hvalue
  · rfl

theorem turn_native {v2 : Bool} {before : Option Byte} {s : List Byte} {numeric : Bool} {nameStart nameLength : ℕ}
    {mark : Option Byte} (h : (turn v2 before s).1 = .native numeric nameStart nameLength mark) :
    s.head? = some dollar := by
  cases s with
  | nil => cases h
  | cons c s =>
    simp only [turn] at h
    cases hstep : triviaStep (c :: s) with
    | some step =>
      obtain ⟨trivia, n⟩ := step
      rw [hstep] at h
      cases trivia <;> cases h
    | none =>
      rw [hstep] at h
      revert h
      apply tokenTurn_cases
        (motive := fun r ↦ r.1 = .native numeric nameStart nameLength mark → (c :: s).head? = some dollar)
      case parameter => exact fun hc _ _ ↦ congrArg some hc
      all_goals
        intros
        contradiction

theorem head_native {v2 : Bool} {before : Option Byte} (hls : (planner v2).Lexes before ls) {l : Lexeme Byte Piece}
    (hl : l ∈ ls) {numeric : Bool} {nameStart nameLength : ℕ} {mark : Option Byte}
    (hkind : l.kind = .native numeric nameStart nameLength mark) : l.text.head? = some dollar := by
  obtain ⟨q, s, hstep⟩ := hls.exists_step hl
  have hturn : turn v2 q (l.text ++ s) = (l.kind, l.text.length) := hstep
  have hhead := turn_native ((congrArg Prod.fst hturn).trans hkind)
  rwa [List.head?_append_of_ne_nil _ (hls.text_ne_nil l hl)] at hhead

/-- The splices of a source and what is rendered in their places. -/
theorem Marks.source_splices (h : Marks o ls ms) (hsql : plan.sql.drop o = source ls) :
    source (((ls.zip ms).map fun x ↦ (x.1, x.2.bind (plan.value bound))).flatMap Splice.pieces) =
      image (plan.replacement (some (bindings bound)) false) ls ms := by
  induction h with
  | nil => rfl
  | plain _ _ ih =>
    rw [List.zip_cons_cons, List.map_cons, List.flatMap_cons, source_append, ih (drop_source hsql)]
    simp [Splice.pieces, image]
  | pdo index _ _ ih | native index _ _ ih =>
    rw [List.zip_cons_cons, List.map_cons, List.flatMap_cons, source_append, ih (drop_source hsql), image,
      replacement_bindings, text_source hsql, Option.bind_some]
    cases plan.value bound _ with
    | none => simp [Splice.pieces]
    | some b => simp [Splice.pieces, source_pieces, blank]

theorem Marks.sound (h : Marks o ls ms) (hvalue : ∀ p, some (false, p) ∈ ms → (plan.value bound (false, p)).isSome)
    (hhead : ∀ l ∈ ls, (l.kind = .named → l.text.head? = some colon) ∧
      (l.kind = .positional → l.text.head? = some question) ∧
      ∀ numeric nameStart nameLength mark, l.kind = .native numeric nameStart nameLength mark → l.text.head? = some dollar) :
    ∀ x ∈ (ls.zip ms).map fun x ↦ (x.1, x.2.bind (plan.value bound)), Splice.Sound x := by
  induction h with
  | nil => simp
  | plain hk _ ih =>
    obtain ⟨-, hhead⟩ := List.forall_mem_cons.mp hhead
    refine List.forall_mem_cons.mpr ⟨⟨fun _ ↦ hk, fun h ↦ ?_⟩, ih (fun p hp ↦ hvalue p (.tail _ hp)) hhead⟩
    cases h
  | @pdo o l ls ms index hk _ ih =>
    obtain ⟨hl, hhead⟩ := List.forall_mem_cons.mp hhead
    refine List.forall_mem_cons.mpr ⟨⟨fun h ↦ ?_, fun _ ↦ ?_⟩, ih (fun p hp ↦ hvalue p (.tail _ hp)) hhead⟩
    · have hsome := hvalue _ (List.mem_cons_self ..)
      have hnone : plan.value bound (false, ⟨o, l.text.length, index, true⟩) = none := h
      rw [hnone] at hsome
      cases hsome
    · cases hkind : l.kind with
      | named => simp [hl.1 hkind]
      | positional => simp [hl.2.1 hkind]
      | _ => simp [hkind, Piece.isPdo] at hk
  | @native o l ls ms numeric nameStart nameLength mark position hk _ ih =>
    obtain ⟨hl, hhead⟩ := List.forall_mem_cons.mp hhead
    refine List.forall_mem_cons.mpr ⟨⟨fun _ ↦ ?_, fun _ ↦ ?_⟩, ih (fun p hp ↦ hvalue p (.tail _ hp)) hhead⟩
    · simp [hk, Piece.isPdo]
    · simp [hl.2.2 _ _ _ _ hk]

/-- Scanning the expanded text finds the pieces of the source again, the placeholders with a
value as the pieces of that value, exactly where the values are parted from their neighbours. -/
theorem scan_expand {v2 legacyParser : Bool} {sql text : List Byte} (h : Plan.create v2 legacyParser sql = .ok plan)
    (hexpand : plan.expand (bindings bound) = .ok text) :
    (planner v2).scan text = (plan.splices bound ((planner v2).scan sql)).flatMap Splice.pieces ↔
      Parted false (plan.splices bound ((planner v2).scan sql)) := by
  have hplan := create_plan_wellFormed h
  obtain ⟨state, ms, hbuilt, rfl⟩ := create_built h
  have hlexes := (planner v2).scan_lexes sql
  have hne := hlexes.text_ne_nil
  obtain ⟨ms, hmarks, hpdos, -, hoccurrences⟩ := hbuilt.occurrences hne true
  have hsource := (planner v2).source_scan sql
  have hsplices : state.finish.splices bound ((planner v2).scan sql) =
      (((planner v2).scan sql).zip ms).map fun x ↦ (x.1, x.2.bind (state.finish.value bound)) := by
    have hnone : ∀ p ∈ ([] : List (Bool × Placeholder)), p.2.offset < 0 := by simp
    rw [← hmarks.found hne hnone, List.map_map, Plan.splices, ← hoccurrences]
    rfl
  have hfst : (state.finish.splices bound ((planner v2).scan sql)).map Prod.fst = (planner v2).scan sql := by
    rw [hsplices, List.map_map]
    exact List.map_fst_zip hmarks.length_eq.le
  have hsql : state.finish.sql = sql := hbuilt.sql
  have hdrop : state.finish.sql.drop 0 = source ((planner v2).scan sql) := by
    rw [List.drop_zero, hsql, hsource]
  have htext : source ((state.finish.splices bound ((planner v2).scan sql)).flatMap Splice.pieces) = text := by
    have hrender := hmarks.renderLoop_eq state.finish (some (bindings bound)) false (Nat.le_refl 0) hdrop
    unfold Plan.expand at hexpand
    split_ifs at hexpand
    rw [hsplices, hmarks.source_splices hdrop, ← Except.ok.inj hexpand, Plan.render, Option.isSome_some,
      hoccurrences, hrender]
    rfl
  have hsound : ∀ x ∈ state.finish.splices bound ((planner v2).scan sql), x.Sound := by
    rw [hsplices]
    apply hmarks.sound
    · intro p hp
      apply value_pdo hplan hexpand
      change p ∈ state.placeholders
      rw [← hpdos]
      exact List.mem_filterMap.mpr ⟨_, hp, rfl⟩
    · exact fun l hl ↦ ⟨(scan_pdo hl).1, (scan_pdo hl).2, fun _ _ _ _ hkind ↦ head_native hlexes hl hkind⟩
  rw [(planner v2).scan_eq_iff, and_iff_left htext]
  apply lexes_splices _ hsound Bool.noConfusion fun _ h ↦ h
  rwa [hfst]

theorem scan_expand_quoted :
    (planner false).scan (ascii "SELECT  'a''b' ") =
      (apartPlan.splices [some (.bytes (ascii "a'b") false)] ((planner false).scan (ascii "SELECT ?"))).flatMap
        Splice.pieces := by
  have hcreate : Plan.create false false (ascii "SELECT ?") = .ok apartPlan := by rfl
  have hexpand : apartPlan.expand (bindings [some (.bytes (ascii "a'b") false)]) = .ok (ascii "SELECT  'a''b' ") := by
    rfl
  have hscan : (planner false).scan (ascii "SELECT ?") =
      [⟨.identifier, ascii "SELECT"⟩, ⟨.blank, [space]⟩, ⟨.positional, [question]⟩] := by rfl
  have hsplices : apartPlan.splices [some (.bytes (ascii "a'b") false)] ((planner false).scan (ascii "SELECT ?")) =
      [(⟨.identifier, ascii "SELECT"⟩, none), (⟨.blank, [space]⟩, none),
        (⟨.positional, [question]⟩, some (.bytes (ascii "a'b") false))] := by
    rw [hscan]
    rfl
  apply (scan_expand hcreate hexpand).mpr
  rw [hsplices]
  simp [Parted]

end Plan

end PdoDuckdb.Sql
