import PdoDuckdb.Sql.Boundaries
import PdoDuckdb.Sql.WellFormed

namespace PdoDuckdb.Sql

open Byte Library.Scanning

/-- The piece a rescan finds where the text has `$` and the number of an index. -/
def numberedPiece (index : ℕ) : Lexeme Byte Piece :=
  ⟨.native true 1 (decimal (index + 1)).length none, dollar :: decimal (index + 1)⟩

def numberedAt (ps : List Placeholder) (x : ℕ × Lexeme Byte Piece) : Lexeme Byte Piece :=
  match ps.find? (·.offset == x.1) with
  | some p => numberedPiece p.index
  | none => x.2

def Plan.nativePieces (plan : Plan) (ls : List (Lexeme Byte Piece)) : List (Lexeme Byte Piece) :=
  (positions 0 ls).map (numberedAt plan.placeholders)

/-- Scanning the native text finds the pieces of the source again, its PDO placeholders
as numbered parameters and all others as they were. -/
def Plan.Unfused (v2 : Bool) (plan : Plan) : Prop :=
  (planner v2).scan plan.native = plan.nativePieces ((planner v2).scan plan.sql)

/-- An identifier, a `$` alone or an unquoted `$name`: a `$` right behind belongs to it. -/
def takesDollar (l : Lexeme Byte Piece) : Bool :=
  match l.kind with
  | .identifier => true
  | .dollar _ | .native _ _ _ _ => l.text.tail.head?.all identifierStart
  | _ => false

/-- Two neighbours that the native text runs together: a placeholder behind a piece
that takes its `$`, or a `?` before a piece that starts with more of its number. -/
def Fuses (l m : Lexeme Byte Piece) : Prop :=
  (m.kind.isPdo ∧ takesDollar l) ∨ (l.kind = .positional ∧ numberLength true m.text ≠ 0)

instance : DecidableRel Fuses := fun l m ↦ by unfold Fuses; infer_instance

section Number

variable {c : Byte} {r : List Byte}

theorem numberLength_eq_zero {t : List Byte} : numberLength true (c :: t) = 0 ↔
    ¬isDigit c ∧ ¬(c = underscore ∧ t.head?.any isDigit) := by
  simp only [numberLength]
  split_ifs <;> simp_all

theorem numberLength_dollar (t : List Byte) : numberLength true (dollar :: t) = 0 :=
  numberLength_eq_zero.mpr ⟨by decide, fun h ↦ absurd h.1 (by decide)⟩

theorem numberLength_digits {t : List Byte} (ht : ∀ c ∈ t, isDigit c) (hne : t ≠ []) (b : Bool) :
    numberLength b (t ++ r) = t.length + numberLength true r := by
  induction t generalizing b with
  | nil => exact absurd rfl hne
  | cons c t ih =>
    obtain ⟨hc, ht⟩ := List.forall_mem_cons.mp ht
    rw [List.cons_append, numberLength, if_pos hc]
    cases t with
    | nil => simp [Nat.add_comm]
    | cons d t =>
      rw [ih ht (List.cons_ne_nil d t)]
      simp only [List.length_cons]
      omega

end Number

section Turns

variable {v2 : Bool} {before before' : Option Byte} {k : Piece} {n : ℕ} {t r s s' : List Byte}

/-- Whether a piece goes on a number is settled by its own text. -/
theorem numberLength_of_turn (ht : t ≠ []) (h : turn v2 before (t ++ r) = (k, t.length)) :
    numberLength true (t ++ r) = 0 ↔ numberLength true t = 0 := by
  obtain ⟨c, t, rfl⟩ := List.exists_cons_of_ne_nil ht
  rw [List.cons_append, numberLength_eq_zero, numberLength_eq_zero]
  by_cases hc : c = underscore
  · have hnone : triviaStep (c :: (t ++ r)) = none := by
      rw [hc]
      exact triviaStep_plain (by decide) (by decide) (by decide) (by decide) _
    have hstart : identifierStart c ∧ ¬isEscapeMark c := by
      rw [hc]
      decide
    have hescape : ¬(isEscapeMark c ∧ (t ++ r).head? = some quote) := fun h ↦ hstart.2 h.1
    rw [List.cons_append, turn, hnone] at h
    dsimp only at h
    rw [tokenTurn_letter hstart.1, if_neg hescape] at h
    have hlen : ((t ++ r).takeWhile identifierContinue).length = t.length := by
      have := (Prod.mk.inj h).2
      simp only [List.length_cons] at this
      omega
    obtain ⟨-, hend⟩ := length_takeWhile_append.mp hlen
    have hclass : ∀ b : Byte, isDigit b → identifierContinue b := forall_byte (by decide)
    cases t with
    | nil =>
      have hdigit : ¬r.head?.any isDigit := by
        intro hdigit
        cases r with
        | nil => cases hdigit
        | cons b r => exact hend (hclass b hdigit)
      simp [hdigit]
    | cons d t => simp
  · simp [hc]

theorem turn_numbered (index : ℕ) (hr : numberLength true r = 0) :
    turn v2 before ((numberedPiece index).text ++ r) =
      ((numberedPiece index).kind, (numberedPiece index).text.length) := by
  have hdigits : ∀ c ∈ decimal (index + 1), isDigit c := fun c ↦ isDigit_of_mem_decimal
  have hne := decimal_ne_nil (index + 1)
  have hlen := numberLength_digits (r := r) hdigits hne false
  simp only [numberedPiece, List.cons_append]
  generalize decimal (index + 1) = digits at hdigits hne hlen ⊢
  have hclass : ∀ c : Byte, isDigit c → ¬isHigh c ∧ isBlank c = false ∧ c ≠ minus ∧ c ≠ slash ∧
      c ≠ dollar ∧ ¬identifierStart c := forall_byte (by decide)
  cases digits with
  | nil => exact absurd rfl hne
  | cons c digits =>
    have hc := hdigits c List.mem_cons_self
    obtain ⟨hhigh, hblank, hminus, hslash, hdollar, hstart⟩ := hclass c hc
    have hnone : triviaStep (dollar :: (c :: digits ++ r)) = none :=
      triviaStep_plain (by decide) (by decide) (by decide) (by decide) _
    have hstring : skipDollarString (dollar :: (c :: digits ++ r)) = 0 := by
      apply skipDollarString_of_no_tag
      rintro b ⟨⟩
      exact ⟨hdollar, hstart⟩
    have hlead : nameLead (c :: digits ++ r) = 0 :=
      nameLead_eq_zero (.inr (triviaStep_plain hhigh hblank hminus hslash _))
    have hname : parameterTurn v2 (c :: digits ++ r) =
        (.native true 1 (c :: digits).length none, (c :: digits).length + 1) := by
      simp only [parameterTurn, hlead, List.drop_zero]
      rw [List.cons_append] at hlen ⊢
      simp only [hc, if_true, hlen, hr, Nat.zero_add, Nat.add_zero]
    rw [turn, hnone]
    dsimp only
    rw [tokenTurn_dollar, if_neg (not_not.mpr hstring), hname]
    rfl

end Turns

section Neighbours

variable {v2 : Bool} {before before' : Option Byte} {k : Piece} {t s s' : List Byte}

/-- The bytes after a piece matter by the first of them, by the trivia and by the
number that may start there. -/
theorem Fits.congr (h : Fits v2 before k t s) (hhead : s.head? = s'.head?)
    (htrivia : triviaStep s = none → triviaStep s' = none)
    (hnumber : numberLength true s = 0 → numberLength true s' = 0)
    (hbefore : before.any identifierContinue → before'.any identifierContinue)
    (hk : k ≠ .named) : Fits v2 before' k t s' := by
  cases k with
  | named => exact absurd rfl hk
  | dollar mark =>
    refine ⟨?_, hhead ▸ h.2⟩
    cases mark with
    | some mark => exact (hhead ▸ h.1 : s'.head? ≠ some mark)
    | none => exact ⟨htrivia h.1.1, hhead ▸ h.1.2⟩
  | native numeric nameStart nameLength mark =>
    refine ⟨?_, hhead ▸ h.2⟩
    cases numeric with
    | true => exact hnumber h.1
    | false =>
      cases mark with
      | some mark => exact (hhead ▸ h.1 : s'.head? ≠ some mark)
      | none => exact (hhead ▸ h.1 : ¬s'.head?.any nameChar)
  | other =>
    refine ⟨hhead ▸ h.1, hhead ▸ h.2.1, fun ht ↦ ?_⟩
    exact ⟨hhead ▸ (h.2.2 ht).1, fun hs ↦ hbefore ((h.2.2 ht).2 (hhead ▸ hs))⟩
  | blank | comment | semicolon | dollarString => trivial
  | escapeString | quoted mark | identifier | cast | questions | positional =>
    simpa only [Fits, hhead] using h

/-- A `$` may follow every piece but those that take it. -/
theorem fits_dollar {l : Lexeme Byte Piece} (hpdo : l.kind.isPdo = false)
    (hmark : ∀ a ∈ l.kind.mark, a = quote ∨ identifierQuote v2 a) :
    Fits v2 before l.kind l.text (dollar :: t) ↔ ¬takesDollar l := by
  have hquote : identifierQuote v2 dollar = false := by cases v2 <;> decide
  have hmark : ∀ a ∈ l.kind.mark, dollar ≠ a := by
    rintro a ha rfl
    rcases hmark _ ha with h | h
    · exact absurd h (by decide)
    · simp [hquote] at h
  obtain ⟨kind, text⟩ := l
  have hname (h : NameEnd v2 kind (dollar :: t)) :
      (NameEnd v2 kind (dollar :: t) ∧
        ((∀ b ∈ text.tail.head?, identifierStart b) → (dollar :: t).head? ≠ some dollar)) ↔
      ¬text.tail.head?.all identifierStart := by
    have hall : text.tail.head?.all identifierStart ↔
        ∀ b ∈ text.tail.head?, identifierStart b := by
      cases text.tail.head? <;> simp
    rw [hall, and_iff_right h]
    simp only [List.head?_cons, ne_eq, not_true_eq_false, imp_false]
  have hne : dollar ≠ quote ∧ dollar ≠ colon ∧ dollar ≠ question ∧ dollar ≠ minus ∧
      dollar ≠ star ∧ identifierContinue dollar ∧ parameterChar dollar = false := by decide
  have hstop : ¬(dollar :: t).head?.any nameChar := by
    change ¬nameChar dollar
    decide
  have hnone : triviaStep (dollar :: t) = none :=
    triviaStep_plain (by decide) (by decide) (by decide) (by decide) t
  cases kind with
  | named | positional => cases hpdo
  | blank | comment | semicolon | dollarString => simp [Fits, takesDollar]
  | escapeString | cast | questions => simp [Fits, takesDollar, hne]
  | quoted mark => simpa [Fits, takesDollar] using hmark mark rfl
  | identifier => simp [Fits, takesDollar, hne]
  | dollar mark =>
    apply hname
    cases mark with
    | none => exact ⟨hnone, hstop, by simp [hquote]⟩
    | some mark => exact fun h ↦ hmark mark rfl (Option.some.inj h)
  | native numeric nameStart nameLength mark =>
    apply hname
    cases numeric with
    | true => exact numberLength_dollar t
    | false =>
      cases mark with
      | none => exact hstop
      | some mark => exact fun h ↦ hmark mark rfl (Option.some.inj h)
  | other => simp [Fits, takesDollar, hne]

inductive Numbers : Lexeme Byte Piece → Lexeme Byte Piece → Prop
  | kept {l : Lexeme Byte Piece} : l.kind.isPdo = false → Numbers l l
  | numbered {l : Lexeme Byte Piece} (index : ℕ) : l.kind.isPdo → Numbers l (numberedPiece index)

variable {l l' m m' : Lexeme Byte Piece} {q q' : Option Byte} {r r' : List Byte}

theorem Numbers.text_ne_nil (h : Numbers l l') (hl : l.text ≠ []) : l'.text ≠ [] := by
  cases h with
  | kept _ => exact hl
  | numbered index _ => exact List.cons_ne_nil _ _

theorem Numbers.continues (h : Numbers l l') (hl : l.text ≠ []) :
    (after before l.text).any identifierContinue →
      (after before' l'.text).any identifierContinue := by
  cases h with
  | kept _ =>
    rw [after_of_ne_nil hl]
    exact id
  | numbered index _ =>
    intro _
    have hclass : ∀ c : Byte, isDigit c → identifierContinue c := forall_byte (by decide)
    have hne := decimal_ne_nil (index + 1)
    have hlast := isDigit_of_mem_decimal (List.getLast_mem hne)
    rw [after, numberedPiece, List.getLast?_cons_of_ne_nil hne, List.getLast?_eq_some_getLast hne]
    exact hclass _ hlast

theorem head_pdo (hpdo : l.kind.isPdo) (hne : l.text ≠ [])
    (hturn : turn v2 before (l.text ++ r) = (l.kind, l.text.length)) :
    ∃ c t, l.text = c :: t ∧ (c = colon ∨ c = question) := by
  obtain ⟨c, t, ht⟩ := List.exists_cons_of_ne_nil hne
  have hhead := turn_pdo hturn
  rw [ht, List.cons_append, List.head?_cons] at hhead
  refine ⟨c, t, ht, ?_⟩
  cases hkind : l.kind <;> simp_all [Piece.isPdo]

/-- A number ends before every piece but those that go on it. -/
theorem numberLength_numbers (hm : Numbers m m') (hne : m.text ≠ [])
    (hturn : turn v2 q (m.text ++ r) = (m.kind, m.text.length))
    (hturn' : turn v2 q' (m'.text ++ r') = (m'.kind, m'.text.length)) :
    numberLength true (m'.text ++ r') = 0 ↔ numberLength true m.text = 0 := by
  cases hm with
  | kept _ => exact numberLength_of_turn hne hturn'
  | numbered index hpdo =>
    refine iff_of_true (numberLength_dollar _) ?_
    obtain ⟨c, t, ht, hc⟩ := head_pdo hpdo hne hturn
    have hclass : ∀ c : Byte, c = colon ∨ c = question → ¬isDigit c ∧ c ≠ underscore :=
      forall_byte (by decide)
    rw [ht, numberLength_eq_zero]
    exact ⟨(hclass c hc).1, fun h ↦ (hclass c hc).2 h.1⟩

/-- What may follow a piece of the native text. -/
theorem fits_numbers (hl : Numbers l l') (hm : Numbers m m') (hne : m.text ≠ [])
    (hfits : Fits v2 before l.kind l.text (m.text ++ r))
    (hmark : ∀ a ∈ l.kind.mark, a = quote ∨ identifierQuote v2 a)
    (hturn : turn v2 q (m.text ++ r) = (m.kind, m.text.length))
    (hturn' : turn v2 q' (m'.text ++ r') = (m'.kind, m'.text.length))
    (hbefore : before.any identifierContinue → before'.any identifierContinue) :
    Fits v2 before' l'.kind l'.text (m'.text ++ r') ↔ ¬Fuses l m := by
  have hnumber := numberLength_numbers hm hne hturn hturn'
  obtain ⟨c, t, ht⟩ := List.exists_cons_of_ne_nil hne
  cases hl with
  | numbered index hpdo =>
    have hdollar : takesDollar l = false := by
      cases hkind : l.kind <;> simp_all [Piece.isPdo, takesDollar]
    have hdigit : ¬∀ b ∈ (numberedPiece index).text.tail.head?, identifierStart b := by
      have hclass : ∀ c : Byte, isDigit c → ¬identifierStart c := forall_byte (by decide)
      obtain ⟨b, u, hu⟩ := List.exists_cons_of_ne_nil (decimal_ne_nil (index + 1))
      have hb : isDigit b := isDigit_of_mem_decimal (hu ▸ List.mem_cons_self)
      simp only [numberedPiece, List.tail_cons, hu, List.head?_cons]
      exact fun h ↦ hclass b hb (h b rfl)
    have hfits' : Fits v2 before' (numberedPiece index).kind (numberedPiece index).text
        (m'.text ++ r') ↔ numberLength true m.text = 0 := by
      rw [← hnumber]
      exact and_iff_left fun h ↦ absurd h hdigit
    rw [hfits']
    cases hkind : l.kind with
    | named =>
      have hclass : ∀ c : Byte, ¬parameterChar c → ¬isDigit c ∧ c ≠ underscore :=
        forall_byte (by decide)
      rw [hkind, ht] at hfits
      obtain ⟨hc, hunderscore⟩ := hclass c hfits.1
      have hzero : numberLength true m.text = 0 := by
        rw [ht, numberLength_eq_zero]
        exact ⟨hc, fun h ↦ hunderscore h.1⟩
      simp [Fuses, hdollar, hkind, hzero]
    | positional => simp [Fuses, hdollar, hkind]
    | _ => simp [hkind, Piece.isPdo] at hpdo
  | kept hpdo =>
    have hkind : l.kind ≠ .named ∧ l.kind ≠ .positional := by
      constructor <;> exact fun h ↦ by simp [h, Piece.isPdo] at hpdo
    cases hm with
    | numbered index hpdo' =>
      have hfuses : Fuses l m ↔ takesDollar l := by simp [Fuses, hpdo', hkind]
      rw [hfuses]
      exact fits_dollar hpdo hmark
    | kept hpdo' =>
      have hfuses : ¬Fuses l m := by simp [Fuses, hpdo', hkind]
      refine iff_of_true (hfits.congr ?_ ?_ ?_ hbefore hkind.1) hfuses
      · rw [ht]
        rfl
      · intro hnone
        have htoken := @turn_of_triviaStep v2 q _ hnone
        rw [hturn] at htoken
        exact triviaStep_of_turn hturn' htoken.1 htoken.2
      · intro hzero
        rw [hnumber]
        exact (numberLength_of_turn hne hturn).mp hzero

end Neighbours

section Run

variable {v2 : Bool} {before before' : Option Byte} {k : Piece} {t : List Byte}
  {l l' : Lexeme Byte Piece} {ls ls' : List (Lexeme Byte Piece)}

/-- The byte before the last piece matters to a `:name` only. -/
theorem turn_last (ht : t ≠ []) (h : turn v2 before t = (k, t.length)) (hk : k ≠ .named) :
    turn v2 before' t = (k, t.length) := by
  obtain ⟨c, t, rfl⟩ := List.exists_cons_of_ne_nil ht
  simp only [turn] at h ⊢
  cases hstep : triviaStep (c :: t) with
  | some step =>
    rw [hstep] at h
    exact h
  | none =>
    rw [hstep] at h
    dsimp only at h ⊢
    by_cases hc : c = colon
    · subst hc
      rw [tokenTurn_colon] at h ⊢
      split_ifs at h with hcolon hname
      · rw [if_pos hcolon, h]
      · exact absurd (Prod.mk.inj h).1.symm hk
      · have hlen := (Prod.mk.inj h).2
        obtain rfl : t = [] := List.length_eq_zero_iff.mp (by simpa using hlen.symm)
        simpa using h
    · simpa only [tokenTurn, hc, false_and, if_false] using h

theorem endsLines_numbers {m m' : Lexeme Byte Piece} {r r' : List Byte} (hm : Numbers m m')
    (hne : m.text ≠ []) (hturn : turn v2 before (m.text ++ r) = (m.kind, m.text.length)) :
    EndsLines (m.text ++ r) (m'.text ++ r') := by
  intro hline
  cases hm with
  | kept _ =>
    obtain ⟨c, t, ht⟩ := List.exists_cons_of_ne_nil hne
    rw [ht]
    rfl
  | numbered index hpdo =>
    obtain ⟨c, t, ht, hc⟩ := head_pdo hpdo hne hturn
    have hclass : ∀ c : Byte, c = colon ∨ c = question → ¬isLineEnd c := forall_byte (by decide)
    rw [ht] at hline
    exact absurd hline (hclass c hc)

/-- A piece of the native text is found where what follows it fits. -/
theorem turn_numbers {s s' : List Byte} (hl : Numbers l l') (hne : l.text ≠ [])
    (hturn : turn v2 before (l.text ++ s) = (l.kind, l.text.length)) (hs : s ≠ []) (hs' : s' ≠ [])
    (hlines : EndsLines s s') (hfits : Fits v2 before' l'.kind l'.text s') :
    turn v2 before' (l'.text ++ s') = (l'.kind, l'.text.length) := by
  cases hl with
  | kept _ => exact (turn_stable hne hs hturn).2 before' s' hs' hlines hfits
  | numbered index _ => exact turn_numbered index hfits.1

theorem turn_numbers_last (hl : Numbers l l') (hne : l.text ≠ [])
    (hturn : turn v2 before l.text = (l.kind, l.text.length)) :
    turn v2 before' l'.text = (l'.kind, l'.text.length) := by
  cases hl with
  | kept hpdo =>
    apply turn_last hne hturn
    intro h
    rw [h] at hpdo
    cases hpdo
  | numbered index _ => simpa using turn_numbered (r := []) index rfl

/-- The native text is scanned piece by piece exactly where no two neighbours fuse. -/
theorem lexes_numbers (h : List.Forall₂ Numbers ls ls') (hls : (planner v2).Lexes before ls)
    (hbefore : before.any identifierContinue → before'.any identifierContinue) :
    (planner v2).Lexes before' ls' ↔ ls.IsChain fun l m ↦ ¬Fuses l m := by
  induction h generalizing before before' with
  | nil => exact iff_of_true (.nil before') .nil
  | @cons l l' ls ls' hl hrest ih =>
    cases hls with
    | cons hne hstep hlexes =>
      have hne' := hl.text_ne_nil hne
      have ih := @ih _ (after before' l'.text) hlexes (hl.continues hne)
      cases hrest with
      | nil =>
        refine iff_of_true (.cons hne' ?_ (.nil _)) (.singleton l)
        rw [source_nil, List.append_nil] at hstep ⊢
        exact turn_numbers_last hl hne hstep
      | @cons m m' ls ls' hm hrest =>
        obtain ⟨hmne, hmstep⟩ : m.text ≠ [] ∧
            turn v2 (after before l.text) (m.text ++ source ls) = (m.kind, m.text.length) := by
          cases hlexes with
          | cons hne hstep _ => exact ⟨hne, hstep⟩
        have hs : source (m :: ls) ≠ [] := by simp [hmne]
        have hs' : source (m' :: ls') ≠ [] := by simp [hm.text_ne_nil hmne]
        have hfits (hlexes' : (planner v2).Lexes (after before' l'.text) (m' :: ls')) :
            Fits v2 before' l'.kind l'.text (source (m' :: ls')) ↔ ¬Fuses l m := by
          cases hlexes' with
          | cons _ hmstep' _ =>
            have hmark := turn_mark v2 before (l.text ++ source (m :: ls))
            rw [show turn v2 before _ = _ from hstep] at hmark
            exact fits_numbers hl hm hmne (turn_stable hne hs hstep).1 hmark hmstep hmstep' hbefore
        rw [List.isChain_cons_cons, ← ih]
        constructor
        · intro hlexes'
          cases hlexes' with
          | cons _ hstep' hlexes' =>
            exact ⟨(hfits hlexes').mp (turn_stable hne' hs' hstep').1, hlexes'⟩
        · rintro ⟨hfuses, hlexes'⟩
          have hturn := turn_numbers hl hne hstep hs hs' (endsLines_numbers hm hmne hmstep)
            ((hfits hlexes').mpr hfuses)
          exact .cons hne' hturn hlexes'

end Run

section Plan

variable {o : ℕ} {ls : List (Lexeme Byte Piece)} {ms : List Mark} {plan : Plan}

theorem find?_offset_eq_none {ps : List Placeholder} (h : ∀ p ∈ ps, p.offset ≠ o) :
    ps.find? (·.offset == o) = none :=
  List.find?_eq_none.mpr fun p hp ↦ by simpa using h p hp

/-- The native text is the source with its marked pieces numbered. -/
theorem Marks.numbers (h : Marks o ls ms) (hls : ∀ l ∈ ls, l.text ≠ [])
    (hnative : ms.filterMap nativeOf = []) {f : Bool → Placeholder → List Byte}
    (hf : ∀ p, f false p = dollar :: decimal (p.index + 1)) {ps : List Placeholder}
    (hps : ∀ p ∈ ps, p.offset < o) :
    List.Forall₂ Numbers ls ((positions o ls).map (numberedAt (ps ++ ms.filterMap pdoOf))) ∧
      source ((positions o ls).map (numberedAt (ps ++ ms.filterMap pdoOf))) = image f ls ms := by
  induction h generalizing ps with
  | nil => exact ⟨.nil, rfl⟩
  | @plain o l ls ms hk hms ih =>
    obtain ⟨hl, hls⟩ := List.forall_mem_cons.mp hls
    have hlen := List.length_pos_of_ne_nil hl
    have hbefore := find?_offset_eq_none fun p hp ↦ Nat.ne_of_lt (hps p hp)
    have hafter : (ms.filterMap pdoOf).find? (·.offset == o) = none := by
      apply find?_offset_eq_none
      intro p hp
      obtain ⟨m, hm, hmp⟩ := List.mem_filterMap.mp hp
      rw [pdoOf_eq_some.mp hmp] at hm
      have := hms.offset_le false p hm
      omega
    have hkept : numberedAt (ps ++ (none :: ms).filterMap pdoOf) (o, l) = l := by
      rw [List.filterMap_cons_none rfl, numberedAt, List.find?_append, hbefore, hafter]
      rfl
    have hps' : ∀ p ∈ ps, p.offset < o + l.text.length := fun p hp ↦ by
      have := hps p hp
      omega
    obtain ⟨hnumbers, himage⟩ := ih hls hnative hps'
    rw [positions, List.map_cons, hkept]
    exact ⟨.cons (.kept hk) hnumbers, congrArg (l.text ++ ·) himage⟩
  | @pdo o l ls ms index hk hms ih =>
    obtain ⟨hl, hls⟩ := List.forall_mem_cons.mp hls
    have hlen := List.length_pos_of_ne_nil hl
    have hbefore := find?_offset_eq_none fun p hp ↦ Nat.ne_of_lt (hps p hp)
    let p : Placeholder := ⟨o, l.text.length, index, true⟩
    have hnumbered : numberedAt (ps ++ p :: ms.filterMap pdoOf) (o, l) = numberedPiece index := by
      rw [numberedAt, List.find?_append, hbefore, List.find?_cons_of_pos (by simp [p])]
      rfl
    have hps' : ∀ q ∈ ps ++ [p], q.offset < o + l.text.length := by
      intro q hq
      rcases List.mem_append.mp hq with hq | hq
      · have := hps q hq
        omega
      · rw [List.mem_singleton.mp hq]
        exact Nat.lt_add_of_pos_right hlen
    obtain ⟨hnumbers, himage⟩ := ih hls hnative hps'
    rw [List.append_assoc, List.singleton_append] at hnumbers himage
    rw [List.filterMap_cons_some (pdoOf_eq_some.mpr rfl), positions, List.map_cons, hnumbered]
    refine ⟨.cons (.numbered index hk) hnumbers, ?_⟩
    rw [source_cons, himage]
    exact congrArg (· ++ image f ls ms) (hf p).symm
  | native position hk hms ih => cases hnative

/-- The native text is scanned as the source with its placeholders numbered exactly where no
placeholder touches a piece it fuses with. -/
theorem unfused_iff {v2 legacyParser : Bool} {sql : List Byte}
    (h : Plan.create v2 legacyParser sql = .ok plan) :
    plan.Unfused v2 ↔ ((planner v2).scan sql).IsChain fun l m ↦ ¬Fuses l m := by
  obtain ⟨state, ms, hbuilt, rfl⟩ := create_built h
  have hsource := (planner v2).source_scan sql
  have hlexes := (planner v2).scan_lexes sql
  obtain ⟨ms', hmarks, hpdos, hnatives, hoccurrences⟩ :=
    hbuilt.occurrences hlexes.text_ne_nil false
  have hsql : state.finish.sql = sql := hbuilt.sql
  have hdrop : state.finish.sql.drop 0 = source ((planner v2).scan sql) := by
    rw [List.drop_zero, hsql, hsource]
  have hnone : ∀ p ∈ ([] : List Placeholder), p.offset < 0 := by simp
  obtain ⟨hnumbers, himage⟩ := hmarks.numbers hlexes.text_ne_nil hnatives
    (f := state.finish.replacement none false) (fun p ↦ rfl) hnone
  rw [List.nil_append, hpdos] at hnumbers himage
  have hnative : source (state.finish.nativePieces ((planner v2).scan sql)) =
      state.finish.native := by
    have hrender := hmarks.renderLoop_eq state.finish none false (Nat.le_refl 0) hdrop
    rw [Plan.native, Plan.render, Option.isSome_none, hoccurrences, hrender, ← himage]
    rfl
  rw [Plan.Unfused, hsql, (planner v2).scan_eq_iff, and_iff_left hnative]
  exact lexes_numbers hnumbers hlexes id

/-- The plan of `SELECT ?`, whose placeholder stands apart. -/
def apartPlan : Plan where
  sql := ascii "SELECT ?"
  legacyParser := false
  nativePositions := [(0, 0)]
  placeholders := [⟨7, 1, 0, true⟩]
  style := .positional
  parameterCount := 1
  bindingCount := 1
  nativeNextPosition := 1

theorem apartPlan_unfused : apartPlan.Unfused false := by
  apply (@unfused_iff apartPlan false false (ascii "SELECT ?") (by rfl)).mpr
  have hscan : (planner false).scan (ascii "SELECT ?") =
      [⟨.identifier, ascii "SELECT"⟩, ⟨.blank, [space]⟩, ⟨.positional, [question]⟩] := by rfl
  simp [hscan, Fuses, takesDollar, Piece.isPdo]

/-- The plan of `SELECT?`, whose native text is `SELECT$1`. -/
def touchingPlan : Plan where
  sql := ascii "SELECT?"
  legacyParser := false
  nativePositions := [(0, 0)]
  placeholders := [⟨6, 1, 0, true⟩]
  style := .positional
  parameterCount := 1
  bindingCount := 1
  nativeNextPosition := 1

theorem not_unfused_select :
    Plan.create false false (ascii "SELECT?") = .ok touchingPlan ∧ ¬touchingPlan.Unfused false := by
  have hscan : (planner false).scan touchingPlan.native =
      [⟨.identifier, ascii "SELECT$1"⟩] := by rfl
  have hpieces : touchingPlan.nativePieces ((planner false).scan touchingPlan.sql) =
      [⟨.identifier, ascii "SELECT"⟩, numberedPiece 0] := by rfl
  refine ⟨rfl, fun h ↦ ?_⟩
  rw [Plan.Unfused, hscan, hpieces] at h
  exact absurd (congrArg List.length h) (by decide)

end Plan

end PdoDuckdb.Sql
