import PdoDuckdb.Sql.Stability

namespace PdoDuckdb.Sql

open Byte Library.Scanning

variable {v2 : Bool} {before before' : Option Byte} {k : Piece} {c : Byte} {t r r' : List Byte}

section DollarString

theorem tagLength_append {n : ℕ} (h : tagLength (t ++ r) = some n) (hn : n < t.length)
    (r' : List Byte) : tagLength (t ++ r') = some n := by
  cases t with
  | nil => cases hn
  | cons c t =>
    simp only [List.cons_append, tagLength] at h ⊢
    split_ifs at h ⊢ with hdollar hstart
    · exact h
    · simp only [Option.some.injEq, List.length_cons] at h hn ⊢
      rw [List.takeWhile_append] at h ⊢
      split_ifs at h ⊢ with hall
      · rw [List.length_append] at h
        omega
      · exact h

theorem skipDollarString_eq {s : List Byte} {n : ℕ} (h : tagLength s = some n) :
    skipDollarString (c :: s) = if ((c :: s).drop (n + 1)).head? = some dollar then
      delimitedLength ((c :: s).take (n + 2)) ((c :: s).drop (n + 2)) + (n + 2) else 0 := by
  rw [skipDollarString, List.tail_cons, h]

theorem skipDollarString_stable (hr : r ≠ [])
    (h : skipDollarString (c :: t ++ r) = (c :: t).length) (r' : List Byte) :
    skipDollarString (c :: t ++ r') = (c :: t).length := by
  cases htag : tagLength (t ++ r) with
  | none =>
    simp [skipDollarString, htag] at h
  | some n =>
    rw [List.cons_append, skipDollarString_eq htag, ← List.cons_append] at h
    split_ifs at h with hhead
    · have hn : n < t.length := by
        simp only [List.length_cons] at h
        omega
      have htag' := tagLength_append htag hn r'
      have hsplit (s : List Byte) : (c :: t ++ s).take (n + 2) = (c :: t).take (n + 2) ∧
          (c :: t ++ s).drop (n + 2) = (c :: t).drop (n + 2) ++ s ∧
          ((c :: t ++ s).drop (n + 1)).head? = ((c :: t).drop (n + 1)).head? := by
        have hlen : n + 2 ≤ (c :: t).length := Nat.succ_le_succ hn
        refine ⟨List.take_append_of_le_length hlen, List.drop_append_of_le_length hlen, ?_⟩
        rw [List.drop_append_of_le_length (by omega), List.head?_append_of_ne_nil]
        rw [ne_eq, List.drop_eq_nil_iff]
        omega
      rw [List.cons_append, skipDollarString_eq htag', ← List.cons_append]
      rw [(hsplit r).2.2] at hhead
      rw [(hsplit r).1, (hsplit r).2.1] at h
      rw [(hsplit r').1, (hsplit r').2.1, (hsplit r').2.2, if_pos hhead]
      have hdelimiter : (c :: t).take (n + 2) ≠ [] := by simp
      have hlen : delimitedLength ((c :: t).take (n + 2)) ((c :: t).drop (n + 2) ++ r) =
          ((c :: t).drop (n + 2)).length := by
        rw [List.length_drop]
        omega
      rw [(delimitedLength_append hdelimiter hr hlen).2 r', ← hlen]
      exact h

theorem skipDollarString_of_no_tag (h : ∀ b ∈ t.head?, b ≠ dollar ∧ ¬identifierStart b) :
    skipDollarString (c :: t) = 0 := by
  cases t with
  | nil => rfl
  | cons b t =>
    obtain ⟨hdollar, hstart⟩ := h b rfl
    simp [skipDollarString, tagLength, hdollar, hstart]

theorem tagContinue_iff : ∀ c : Byte, tagContinue c = nameChar c :=
  forall_byte (by decide)

/-- A `$` and a name that the text goes on after with neither a name byte nor
another `$` open no dollar string. -/
theorem skipDollarString_of_name (ht : ∀ b ∈ t, nameChar b) (hr : ¬r.head?.any nameChar)
    (hdollar : r.head? ≠ some dollar) : skipDollarString (c :: t ++ r) = 0 := by
  cases t with
  | nil =>
    apply skipDollarString_of_no_tag
    intro b hb
    have hclass : ∀ b : Byte, identifierStart b → nameChar b := forall_byte (by decide)
    refine ⟨fun h ↦ hdollar (h ▸ hb), fun h ↦ hr ?_⟩
    have hb : r.head? = some b := hb
    rw [hb]
    exact hclass b h
  | cons b t =>
    have hb : b ≠ dollar := by
      have hclass : ∀ b : Byte, nameChar b → b ≠ dollar := forall_byte (by decide)
      exact hclass b (ht b List.mem_cons_self)
    have hchars : ((t ++ r).takeWhile tagContinue).length = t.length := by
      rw [funext tagContinue_iff]
      exact length_takeWhile_append.mpr ⟨fun a ha ↦ ht a (List.mem_cons_of_mem b ha), hr⟩
    by_cases hstart : identifierStart b
    · have htag : tagLength (b :: t ++ r) = some (t.length + 1) := by
        simp [tagLength, hb, hstart, hchars]
      have hdrop : (c :: (b :: t ++ r)).drop (t.length + 1 + 1) = r := by
        simp
      rw [List.cons_append, skipDollarString_eq htag, hdrop, if_neg hdollar]
    · apply skipDollarString_of_no_tag
      rintro a ⟨⟩
      exact ⟨hb, hstart⟩

theorem skipDollarString_of_tag (ht : ∀ b ∈ t, nameChar b)
    (hstart : ∀ b ∈ t.head?, identifierStart b) (hdollar : r.head? = some dollar) :
    skipDollarString (c :: (t ++ r)) ≠ 0 := by
  obtain ⟨r, rfl⟩ := List.head?_eq_some_iff.mp hdollar
  have htag : tagLength (t ++ dollar :: r) = some t.length := by
    cases t with
    | nil => rfl
    | cons b t =>
      have hb : b ≠ dollar := by
        have hclass : ∀ b : Byte, nameChar b → b ≠ dollar := forall_byte (by decide)
        exact hclass b (ht b List.mem_cons_self)
      have hchars : ((t ++ dollar :: r).takeWhile tagContinue).length = t.length := by
        rw [funext tagContinue_iff]
        refine length_takeWhile_append.mpr ⟨fun a ha ↦ ht a (List.mem_cons_of_mem b ha), ?_⟩
        change ¬nameChar dollar
        decide
      simp [tagLength, hb, hstart b rfl, hchars]
  have hdrop : ((c :: (t ++ dollar :: r)).drop (t.length + 1)).head? = some dollar := by simp
  rw [skipDollarString_eq htag, if_pos hdrop]
  omega

end DollarString

section Classes

variable {s : List Byte}

theorem tokenTurn_letter (h : identifierStart c) : tokenTurn v2 before c s =
    if isEscapeMark c ∧ s.head? = some quote then (.escapeString, skipString quote true s + 1)
    else (.identifier, (s.takeWhile identifierContinue).length + 1) := by
  have hclass : ∀ c : Byte, identifierStart c → c ≠ semicolon ∧ c ≠ quote ∧
      identifierQuote true c = false ∧ c ≠ dollar := forall_byte (by decide)
  obtain ⟨hsemicolon, hquote, hmark, hdollar⟩ := hclass c h
  have hmark' : identifierQuote v2 c = false := by
    rw [← Bool.not_eq_true] at hmark ⊢
    exact fun h ↦ hmark (identifierQuote_true h)
  simp [tokenTurn, hsemicolon, hquote, hmark', hdollar, h]

theorem tokenTurn_quoted (h : c = quote ∨ identifierQuote v2 c) :
    tokenTurn v2 before c s = (.quoted c, skipString c false (c :: s)) := by
  have hclass : ∀ c : Byte, c = quote ∨ identifierQuote true c →
      c ≠ semicolon ∧ isEscapeMark c = false := forall_byte (by decide)
  obtain ⟨hsemicolon, hescape⟩ := hclass c (h.imp_right identifierQuote_true)
  simp [tokenTurn, hsemicolon, hescape, h]

theorem tokenTurn_dollar : tokenTurn v2 before dollar s =
    if skipDollarString (dollar :: s) ≠ 0 then (.dollarString, skipDollarString (dollar :: s))
    else parameterTurn v2 s := by
  have hmark : identifierQuote v2 dollar = false := by cases v2 <;> decide
  have hne : dollar ≠ semicolon ∧ isEscapeMark dollar = false ∧ dollar ≠ quote := by decide
  simp [tokenTurn, hmark, hne]

theorem tokenTurn_colon : tokenTurn v2 before colon s =
    if s.head? = some colon then (.cast, (s.takeWhile (· == colon)).length + 1)
    else if s.head?.any parameterChar ∧ ¬before.any identifierContinue then
      (.named, (s.takeWhile parameterChar).length + 1)
    else (.other, 1) := by
  have hmark : identifierQuote v2 colon = false := by cases v2 <;> decide
  have hne : colon ≠ semicolon ∧ isEscapeMark colon = false ∧ colon ≠ quote ∧ colon ≠ dollar ∧
      identifierStart colon = false ∧ colon ≠ question := by decide
  simp [tokenTurn, hmark, hne]

theorem tokenTurn_question : tokenTurn v2 before question s =
    if s.head? = some question then (.questions, (s.takeWhile (· == question)).length + 1)
    else (.positional, 1) := by
  have hmark : identifierQuote v2 question = false := by cases v2 <;> decide
  have hne : question ≠ semicolon ∧ isEscapeMark question = false ∧ question ≠ quote ∧
      question ≠ dollar ∧ identifierStart question = false ∧ question ≠ colon := by decide
  simp [tokenTurn, hmark, hne]

theorem tokenTurn_other (hstart : ¬identifierStart c)
    (hquote : ¬(c = quote ∨ identifierQuote v2 c)) (hsemicolon : c ≠ semicolon)
    (hdollar : c ≠ dollar) (hcolon : c ≠ colon) (hquestion : c ≠ question) :
    tokenTurn v2 before c s = (.other, 1) := by
  have hclass : ∀ c : Byte, ¬identifierStart c → isEscapeMark c = false :=
    forall_byte (by decide)
  simp [tokenTurn, hstart, hquote, hsemicolon, hdollar, hcolon, hquestion, hclass c hstart]

end Classes

/-- What may follow a piece without changing it, once line ends are settled. -/
def Fits (v2 : Bool) (before : Option Byte) (k : Piece) (text r : List Byte) : Prop :=
  match k with
  | .blank | .comment | .semicolon | .dollarString => True
  | .escapeString => r.head? ≠ some quote
  | .quoted mark => r.head? ≠ some mark
  | .dollar _ | .native _ _ _ _ =>
    NameEnd v2 k r ∧ ((∀ b ∈ text.tail.head?, identifierStart b) → r.head? ≠ some dollar)
  | .identifier => ¬r.head?.any identifierContinue ∧
      (text.length = 1 → text.head?.any isEscapeMark → r.head? ≠ some quote)
  | .cast => r.head? ≠ some colon
  | .named => ¬r.head?.any parameterChar ∧ ¬before.any identifierContinue
  | .questions | .positional => r.head? ≠ some question
  | .other => (text = [minus] → r.head? ≠ some minus) ∧ (text = [slash] → r.head? ≠ some star) ∧
      (text = [colon] → r.head? ≠ some colon ∧
        (r.head?.any parameterChar → before.any identifierContinue))

/-- A piece of the planner at its place: what the turn makes of a text that goes on with `r`. -/
structure Stable (v2 : Bool) (before : Option Byte) (k : Piece) (c : Byte) (t r : List Byte) :
    Prop where
  fits : Fits v2 before k (c :: t) r
  stable : ∀ before' r', r' ≠ [] → Fits v2 before' k (c :: t) r' →
    tokenTurn v2 before' c (t ++ r') = (k, t.length + 1)

theorem stable_letter (hc : identifierStart c) (hr : r ≠ [])
    (h : tokenTurn v2 before c (t ++ r) = (k, t.length + 1)) :
    Stable v2 before k c t r ∧ (isHigh c → k = .identifier) := by
  have hescape_high : isHigh c → ¬isEscapeMark c := by
    unfold isHigh isEscapeMark
    grind
  rw [tokenTurn_letter hc] at h
  split_ifs at h with hescape
  · obtain ⟨rfl, hlen⟩ := Prod.mk.inj h
    cases t with
    | nil =>
      simp only [skipString, List.nil_append, List.length_nil] at hlen
      omega
    | cons d t =>
      have hlen : quotedLength quote true (t ++ r) = t.length := by
        simpa [skipString] using hlen
      obtain ⟨hend, hstable⟩ := quotedLength_append hr hlen
      refine ⟨⟨hend, fun before' r' _ hr' ↦ ?_⟩, fun h ↦ absurd hescape.1 (hescape_high h)⟩
      have hhead : (d :: t ++ r').head? = some quote := hescape.2
      rw [tokenTurn_letter hc, if_pos ⟨hescape.1, hhead⟩]
      simp [skipString, hstable r' hr']
  · obtain ⟨rfl, hlen⟩ := Prod.mk.inj h
    have hlen : ((t ++ r).takeWhile identifierContinue).length = t.length := by omega
    obtain ⟨ht, hend⟩ := length_takeWhile_append.mp hlen
    refine ⟨⟨⟨hend, ?_⟩, fun before' r' _ hr' ↦ ?_⟩, fun _ ↦ rfl⟩
    · intro hone hmark hhead
      obtain rfl : t = [] := by simpa using hone
      exact hescape ⟨by simpa using hmark, hhead⟩
    · have hescape' : ¬(isEscapeMark c ∧ (t ++ r').head? = some quote) := by
        rintro ⟨hmark, hhead⟩
        cases t with
        | nil => exact hr'.2 rfl (by simpa using hmark) hhead
        | cons d t => exact hescape ⟨hmark, hhead⟩
      rw [tokenTurn_letter hc, if_neg hescape', length_takeWhile_append.mpr ⟨ht, hr'.1⟩]

theorem stable_quoted (hc : c = quote ∨ identifierQuote v2 c) (hr : r ≠ [])
    (h : tokenTurn v2 before c (t ++ r) = (k, t.length + 1)) : Stable v2 before k c t r := by
  rw [tokenTurn_quoted hc] at h
  obtain ⟨rfl, hlen⟩ := Prod.mk.inj h
  have hlen : quotedLength c false (t ++ r) = t.length := by simpa [skipString] using hlen
  obtain ⟨hend, hstable⟩ := quotedLength_append hr hlen
  refine ⟨hend, fun before' r' _ hr' ↦ ?_⟩
  rw [tokenTurn_quoted hc]
  simp [skipString, hstable r' hr']

theorem parameterTurn_form (v2 : Bool) (s : List Byte) :
    (∃ mark, (parameterTurn v2 s).1 = .dollar mark) ∨
      ∃ numeric nameStart nameLength mark,
        (parameterTurn v2 s).1 = .native numeric nameStart nameLength mark := by
  unfold parameterTurn
  dsimp only
  split
  · exact .inl ⟨none, rfl⟩
  · split_ifs
    all_goals first
      | exact .inl ⟨_, rfl⟩
      | exact .inr ⟨_, _, _, _, rfl⟩

theorem stable_dollar (hr : r ≠ [])
    (h : tokenTurn v2 before dollar (t ++ r) = (k, t.length + 1)) :
    Stable v2 before k dollar t r := by
  rw [tokenTurn_dollar] at h
  split_ifs at h with hstring
  · obtain ⟨rfl, hlen⟩ := Prod.mk.inj h
    refine ⟨trivial, fun before' r' _ _ ↦ ?_⟩
    have hstable : skipDollarString (dollar :: (t ++ r')) = t.length + 1 :=
      skipDollarString_stable hr hlen r'
    rw [tokenTurn_dollar, hstable, if_pos (Nat.succ_ne_zero _)]
  · have hform := parameterTurn_form v2 (t ++ r)
    rw [h] at hform
    have hfits (before : Option Byte) (r : List Byte) : Fits v2 before k (dollar :: t) r ↔
        NameEnd v2 k r ∧ ((∀ b ∈ t.head?, identifierStart b) → r.head? ≠ some dollar) := by
      obtain ⟨mark, rfl⟩ | ⟨numeric, nameStart, nameLength, mark, rfl⟩ := hform <;> rfl
    obtain ⟨hend, hempty, hhead, hstable⟩ := parameterTurn_stable hr h
    have hchars (hstart : ∀ b ∈ t.head?, identifierStart b) :
        (∀ b ∈ t, nameChar b) ∧ ∀ r, NameEnd v2 k r → ¬r.head?.any nameChar := by
      cases t with
      | nil =>
        obtain rfl := hempty rfl
        exact ⟨by simp, fun r hend ↦ hend.2.1⟩
      | cons b t =>
        obtain ⟨hkind, hall⟩ := (hhead b rfl).2
        obtain rfl := hkind.mp (hstart b rfl)
        exact ⟨hall (hstart b rfl), fun r hend ↦ hend⟩
    refine ⟨(hfits before r).mpr ⟨hend, fun hstart hdollar ↦ ?_⟩, fun before' r' hne hr' ↦ ?_⟩
    · exact skipDollarString_of_tag (hchars hstart).1 hstart hdollar (not_not.mp hstring)
    · obtain ⟨hend', hdollar'⟩ := (hfits before' r').mp hr'
      have hzero : skipDollarString (dollar :: (t ++ r')) = 0 := by
        by_cases hstart : ∀ b ∈ t.head?, identifierStart b
        · exact skipDollarString_of_name (hchars hstart).1 ((hchars hstart).2 r' hend')
            (hdollar' hstart)
        · apply skipDollarString_of_no_tag
          intro b hb
          cases t with
          | nil => simp at hstart
          | cons a t =>
            obtain rfl : a = b := by simpa using hb
            exact ⟨(hhead a rfl).1, by simpa using hstart⟩
      rw [tokenTurn_dollar, if_neg (not_not.mpr hzero)]
      exact hstable r' hne hend'

theorem any_beq {a : Byte} : r.head?.any (· == a) ↔ r.head? = some a := by
  cases r.head? <;> simp

theorem stable_colon (h : tokenTurn v2 before colon (t ++ r) = (k, t.length + 1)) :
    Stable v2 before k colon t r := by
  rw [tokenTurn_colon] at h
  split_ifs at h with hcolon hname
  · obtain ⟨rfl, hlen⟩ := Prod.mk.inj h
    have hlen : ((t ++ r).takeWhile (· == colon)).length = t.length := by omega
    obtain ⟨ht, hend⟩ := length_takeWhile_append.mp hlen
    rw [any_beq] at hend
    have hne : t ≠ [] := by
      rintro rfl
      exact hend hcolon
    refine ⟨hend, fun before' r' _ hr' ↦ ?_⟩
    have hend' : ¬r'.head?.any (· == colon) := by
      rw [any_beq]
      exact hr'
    obtain ⟨a, t, rfl⟩ := List.exists_cons_of_ne_nil hne
    have hcolon' : (a :: t ++ r').head? = some colon := hcolon
    rw [tokenTurn_colon, if_pos hcolon', length_takeWhile_append.mpr ⟨ht, hend'⟩]
  · obtain ⟨rfl, hlen⟩ := Prod.mk.inj h
    have hlen : ((t ++ r).takeWhile parameterChar).length = t.length := by omega
    obtain ⟨ht, hend⟩ := length_takeWhile_append.mp hlen
    refine ⟨⟨hend, hname.2⟩, fun before' r' _ hr' ↦ ?_⟩
    cases t with
    | nil => exact absurd hname.1 hend
    | cons a t =>
      have hcolon' : (a :: t ++ r').head? ≠ some colon := hcolon
      have hname' : (a :: t ++ r').head?.any parameterChar := hname.1
      rw [tokenTurn_colon, if_neg hcolon', if_pos ⟨hname', hr'.2⟩,
        length_takeWhile_append.mpr ⟨ht, hr'.1⟩]
  · obtain ⟨rfl, hlen⟩ := Prod.mk.inj h
    obtain rfl : t = [] := List.length_eq_zero_iff.mp (by omega)
    have hminus : colon ≠ minus ∧ colon ≠ slash := by decide
    refine ⟨⟨by simp [hminus], by simp [hminus], fun _ ↦ ⟨hcolon, fun h ↦ ?_⟩⟩,
      fun before' r' _ hr' ↦ ?_⟩
    · exact not_not.mp fun hbefore ↦ hname ⟨h, hbefore⟩
    · obtain ⟨hcolon', hname'⟩ := hr'.2.2 rfl
      rw [tokenTurn_colon, List.nil_append, if_neg hcolon', if_neg]
      · rfl
      · exact fun h ↦ h.2 (hname' h.1)

theorem stable_question (h : tokenTurn v2 before question (t ++ r) = (k, t.length + 1)) :
    Stable v2 before k question t r := by
  rw [tokenTurn_question] at h
  split_ifs at h with hquestion
  · obtain ⟨rfl, hlen⟩ := Prod.mk.inj h
    have hlen : ((t ++ r).takeWhile (· == question)).length = t.length := by omega
    obtain ⟨ht, hend⟩ := length_takeWhile_append.mp hlen
    rw [any_beq] at hend
    have hne : t ≠ [] := by
      rintro rfl
      exact hend hquestion
    refine ⟨hend, fun before' r' _ hr' ↦ ?_⟩
    have hend' : ¬r'.head?.any (· == question) := by
      rw [any_beq]
      exact hr'
    obtain ⟨a, t, rfl⟩ := List.exists_cons_of_ne_nil hne
    have hquestion' : (a :: t ++ r').head? = some question := hquestion
    rw [tokenTurn_question, if_pos hquestion', length_takeWhile_append.mpr ⟨ht, hend'⟩]
  · obtain ⟨rfl, hlen⟩ := Prod.mk.inj h
    obtain rfl : t = [] := List.length_eq_zero_iff.mp (by omega)
    refine ⟨hquestion, fun before' r' _ hr' ↦ ?_⟩
    rw [tokenTurn_question, List.nil_append, if_neg hr']
    rfl

theorem stable_other (hstart : ¬identifierStart c) (hquote : ¬(c = quote ∨ identifierQuote v2 c))
    (hsemicolon : c ≠ semicolon) (hdollar : c ≠ dollar) (hcolon : c ≠ colon)
    (hquestion : c ≠ question) (hnone : triviaStep (c :: (t ++ r)) = none)
    (h : tokenTurn v2 before c (t ++ r) = (k, t.length + 1)) : Stable v2 before k c t r := by
  have hturn (before : Option Byte) (s : List Byte) : tokenTurn v2 before c s = (.other, 1) :=
    tokenTurn_other hstart hquote hsemicolon hdollar hcolon hquestion
  rw [hturn] at h
  obtain ⟨rfl, hlen⟩ := Prod.mk.inj h
  obtain rfl : t = [] := List.length_eq_zero_iff.mp (by omega)
  obtain ⟨-, -, hline, hblock⟩ := triviaStep_eq_none.mp hnone
  refine ⟨⟨fun h ↦ ?_, fun h ↦ ?_, fun h ↦ ?_⟩, fun before' r' _ _ ↦ hturn before' _⟩
  · exact fun hhead ↦ hline ⟨(List.cons.inj h).1, hhead⟩
  · exact fun hhead ↦ hblock ⟨(List.cons.inj h).1, hhead⟩
  · exact absurd (List.cons.inj h).1 hcolon

theorem stable_semicolon (h : tokenTurn v2 before semicolon (t ++ r) = (k, t.length + 1)) :
    Stable v2 before k semicolon t r := by
  have hturn (before : Option Byte) (s : List Byte) :
      tokenTurn v2 before semicolon s = (.semicolon, 1) := by simp [tokenTurn]
  rw [hturn] at h
  obtain ⟨rfl, hlen⟩ := Prod.mk.inj h
  obtain rfl : t = [] := List.length_eq_zero_iff.mp (by omega)
  exact ⟨trivial, fun before' r' _ _ ↦ hturn before' _⟩

/-- Every piece says what may follow it and stays the same under that. -/
theorem tokenTurn_stable (hr : r ≠ []) (hnone : triviaStep (c :: (t ++ r)) = none)
    (h : tokenTurn v2 before c (t ++ r) = (k, t.length + 1)) : Stable v2 before k c t r := by
  by_cases hstart : identifierStart c
  · exact (stable_letter hstart hr h).1
  by_cases hquote : c = quote ∨ identifierQuote v2 c
  · exact stable_quoted hquote hr h
  by_cases hdollar : c = dollar
  · subst hdollar
    exact stable_dollar hr h
  by_cases hcolon : c = colon
  · subst hcolon
    exact stable_colon h
  by_cases hquestion : c = question
  · subst hquestion
    exact stable_question h
  by_cases hsemicolon : c = semicolon
  · subst hsemicolon
    exact stable_semicolon h
  exact stable_other hstart hquote hsemicolon hdollar hcolon hquestion hnone h

theorem tokenTurn_operator (hc : c = minus ∨ c = slash) (s : List Byte) :
    tokenTurn v2 before c s = (.other, 1) := by
  have hclass : ∀ c : Byte, c = minus ∨ c = slash → identifierStart c = false ∧ c ≠ quote ∧
      identifierQuote true c = false ∧ c ≠ semicolon ∧ c ≠ dollar ∧ c ≠ colon ∧
      c ≠ question := forall_byte (by decide)
  obtain ⟨hstart, hquote, hmark, hsemicolon, hdollar, hcolon, hquestion⟩ := hclass c hc
  have hmark' : ¬identifierQuote v2 c := fun h ↦ by
    rw [identifierQuote_true h] at hmark
    cases hmark
  exact tokenTurn_other (by simp [hstart]) (by simp [hquote, hmark']) hsemicolon hdollar hcolon
    hquestion

/-- The byte at which a token starts starts no trivia, whatever may follow the token. -/
theorem triviaStep_token (hr : r ≠ []) (hnone : triviaStep (c :: (t ++ r)) = none)
    (h : tokenTurn v2 before c (t ++ r) = (k, t.length + 1))
    (hfits : Fits v2 before' k (c :: t) r') : triviaStep (c :: (t ++ r')) = none := by
  obtain ⟨hspace, hblank, hline, hblock⟩ := triviaStep_eq_none.mp hnone
  have hoperator (hc : c = minus ∨ c = slash) : k = .other ∧ t = [] := by
    rw [tokenTurn_operator hc] at h
    obtain ⟨rfl, hlen⟩ := Prod.mk.inj h
    exact ⟨rfl, List.length_eq_zero_iff.mp (by omega)⟩
  refine triviaStep_eq_none.mpr ⟨?_, hblank, ?_, ?_⟩
  · by_cases hhigh : isHigh c
    · have hc : identifierStart c := by
        have hclass : ∀ c : Byte, isHigh c → identifierStart c := forall_byte (by decide)
        exact hclass c hhigh
      obtain ⟨hstable, hkind⟩ := stable_letter hc hr h
      obtain rfl := hkind hhigh
      have hlow {s : List Byte} (hs : ¬s.head?.any identifierContinue) : ¬s.head?.any isHigh := by
        have hclass : ∀ a : Byte, isHigh a → identifierContinue a :=
          forall_byte (by decide)
        cases s with
        | nil => simp
        | cons a s => exact fun h ↦ hs (hclass a h)
      have hspace' : spaceLength (c :: t ++ r) = 0 := hspace
      rw [spaceLength_append (hlow hstable.fits.1)] at hspace'
      exact (spaceLength_append (hlow hfits.1) c t).trans hspace'
    · exact spaceLength_of_not_high hhigh _
  · rintro ⟨rfl, hhead⟩
    obtain ⟨rfl, rfl⟩ := hoperator (.inl rfl)
    exact hfits.1 rfl hhead
  · rintro ⟨rfl, hhead⟩
    obtain ⟨rfl, rfl⟩ := hoperator (.inr rfl)
    exact hfits.2.1 rfl hhead

/-- A piece fits its place, and keeps its kind and its length wherever it fits. -/
theorem turn_stable (ht : t ≠ []) (hr : r ≠ []) (h : turn v2 before (t ++ r) = (k, t.length)) :
    Fits v2 before k t r ∧ ∀ before' r', r' ≠ [] → EndsLines r r' → Fits v2 before' k t r' →
      turn v2 before' (t ++ r') = (k, t.length) := by
  obtain ⟨c, t, rfl⟩ := List.exists_cons_of_ne_nil ht
  simp only [turn, List.cons_append] at h ⊢
  cases hstep : triviaStep (c :: (t ++ r)) with
  | none =>
    rw [hstep] at h
    have hstable := tokenTurn_stable hr hstep h
    refine ⟨hstable.fits, fun before' r' hr' _ hfits ↦ ?_⟩
    rw [triviaStep_token hr hstep h hfits]
    exact hstable.stable before' r' hr' hfits
  | some step =>
    obtain ⟨trivia, n⟩ := step
    rw [hstep] at h
    obtain ⟨rfl, rfl⟩ := Prod.mk.inj h
    refine ⟨by cases trivia <;> trivial, fun before' r' _ hlines _ ↦ ?_⟩
    have hstable : triviaStep (c :: t ++ r') = some (trivia, (c :: t).length) :=
      triviaStep_stable hr hlines hstep
    rw [List.cons_append] at hstable
    rw [hstable]

section Turns

variable {n : ℕ} {s : List Byte}

def Piece.mark : Piece → Option Byte
  | .quoted mark => some mark
  | .dollar mark | .native _ _ _ mark => mark
  | _ => none

theorem parameterTurn_mark (v2 : Bool) (s : List Byte) :
    ∀ a ∈ (parameterTurn v2 s).1.mark, identifierQuote v2 a := by
  intro a ha
  unfold parameterTurn at ha
  dsimp only at ha
  split at ha
  · cases ha
  · next c name _ =>
    split_ifs at ha with hdigit hquote
    all_goals first
      | exact Option.mem_some_iff.mp ha ▸ hquote
      | cases ha

theorem turn_mark (v2 : Bool) (before : Option Byte) (s : List Byte) :
    ∀ a ∈ (turn v2 before s).1.mark, a = quote ∨ identifierQuote v2 a := by
  have hunmarked (k : Piece) (hk : k.mark = none) :
      ∀ a ∈ k.mark, a = quote ∨ identifierQuote v2 a := by
    intro a ha
    rw [hk] at ha
    cases ha
  cases s with
  | nil => exact hunmarked _ rfl
  | cons c s =>
    simp only [turn]
    cases triviaStep (c :: s) with
    | some step =>
      apply hunmarked
      obtain ⟨trivia, n⟩ := step
      cases trivia <;> rfl
    | none =>
      apply tokenTurn_cases
        (motive := fun r ↦ ∀ a ∈ r.1.mark, a = quote ∨ identifierQuote v2 a)
      case quoted => exact fun h a ha ↦ Option.mem_some_iff.mp ha ▸ h
      case parameter => exact fun _ _ a ha ↦ .inr (parameterTurn_mark v2 s a ha)
      all_goals
        intros
        exact hunmarked _ rfl _ ‹_›

/-- A text at which a token starts starts no trivia. -/
theorem triviaStep_of_turn (h : turn v2 before s = (k, n)) (hblank : k ≠ .blank)
    (hcomment : k ≠ .comment) : triviaStep s = none := by
  cases s with
  | nil => rfl
  | cons c s =>
    cases hstep : triviaStep (c :: s) with
    | none => rfl
    | some step =>
      obtain ⟨trivia, length⟩ := step
      simp only [turn, hstep, Prod.mk.injEq] at h
      cases trivia
      · exact absurd h.1.symm hblank
      · exact absurd h.1.symm hcomment

theorem turn_of_triviaStep (h : triviaStep s = none) :
    (turn v2 before s).1 ≠ .blank ∧ (turn v2 before s).1 ≠ .comment := by
  cases s with
  | nil => simp [turn]
  | cons c s =>
    have hname : (parameterTurn v2 s).1 ≠ .blank ∧ (parameterTurn v2 s).1 ≠ .comment := by
      rcases parameterTurn_form v2 s with ⟨mark, h⟩ | ⟨numeric, nameStart, nameLength, mark, h⟩ <;>
        simp [h]
    simp only [turn, h]
    apply tokenTurn_cases (motive := fun r ↦ r.1 ≠ .blank ∧ r.1 ≠ .comment)
    case parameter => exact fun _ _ ↦ hname
    all_goals
      intros
      exact ⟨Piece.noConfusion, Piece.noConfusion⟩

theorem triviaStep_plain {c : Byte} (hhigh : ¬isHigh c) (hblank : isBlank c = false)
    (hminus : c ≠ minus) (hslash : c ≠ slash) (s : List Byte) : triviaStep (c :: s) = none :=
  triviaStep_eq_none.mpr ⟨spaceLength_of_not_high hhigh s, hblank, fun h ↦ hminus h.1,
    fun h ↦ hslash h.1⟩

end Turns

end PdoDuckdb.Sql
