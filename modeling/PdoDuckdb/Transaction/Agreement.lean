import PdoDuckdb.Transaction.Regions

namespace PdoDuckdb.Transaction

open Byte Library.Scanning Sql

variable {v2 w : Bool} {before : Option Byte} {c : Byte} {k : Piece} {s t r : List Byte}
  {X : List Region}

section Constructs

theorem dollarTagLength_true (s : List Byte) :
    dollarTagLength true s = (s.takeWhile tagContinue).length := by
  induction s with
  | nil => rfl
  | cons c s ih =>
    have hclass : ∀ c : Byte, (isLetter c || c == underscore || isHigh c || (true && isDigit c)) =
        tagContinue c := forall_byte (by decide)
    rw [dollarTagLength, hclass, List.takeWhile_cons]
    cases tagContinue c with
    | true => simp [ih]
    | false => rfl

/-- Both scanners have the same dollar strings. -/
theorem skipDollarQuote_eq (s : List Byte) : skipDollarQuote s = skipDollarString s := by
  have hdollar : identifierStart dollar = false := by decide
  have hclass : ∀ c : Byte, (isLetter c || c == underscore || isHigh c || (false && isDigit c)) =
      identifierStart c := forall_byte (by decide)
  rw [skipDollarQuote, skipDollarString]
  cases htail : s.tail with
  | nil =>
    have hhead : (s.drop 1).head? ≠ some dollar := by
      rw [List.drop_one, htail]
      exact Option.some_ne_none dollar ∘ Eq.symm
    simp only [dollarTagLength, tagLength, Nat.zero_add, if_neg hhead]
  | cons c u =>
    rw [dollarTagLength, hclass, tagLength, dollarTagLength_true]
    by_cases hc : c = dollar
    · simp [hc, hdollar]
    · by_cases hstart : identifierStart c
      · simp [hc, hstart]
      · have hhead : (s.drop 1).head? ≠ some dollar := by
          rw [List.drop_one, htail]
          exact fun h ↦ hc (Option.some.inj h)
        simp only [if_neg hstart, if_neg hc, Nat.zero_add, if_neg hhead]

theorem quotedWordLength_eq (s : List Byte) : quotedLength doubleQuote false s =
    match quotedWordLength s with
    | some n => n + 1
    | none => s.length := by
  fun_induction quotedWordLength s <;> simp_all [quotedLength]
  · cases quotedWordLength _ <;> rfl
  · cases quotedWordLength _ <;> rfl

theorem freeRegions_quoted (h : c = quote ∨ c = doubleQuote) (s : List Byte) :
    freeRegions (c :: s) = .replicate (skipString c false (c :: s)) (markRegion c) ++
      freeRegions ((c :: s).drop (skipString c false (c :: s))) := by
  have hclass : ∀ c : Byte, c = quote ∨ c = doubleQuote → ¬isHigh c ∧ isBlank c = false ∧
      c ≠ minus ∧ c ≠ slash ∧ isEscapeMark c = false := forall_byte (by decide)
  obtain ⟨hhigh, hblank, hminus, hslash, hmark⟩ := hclass c h
  have hnone : triviaStep (c :: s) = none := triviaStep_plain hhigh hblank hminus hslash s
  have hescape : ¬(isEscapeMark c ∧ s.head? = some quote) := by simp [hmark]
  have hdouble : doubleQuote ≠ quote := by decide
  rcases h with rfl | rfl
  · have hlex : lexToken quote s = (.string, skipQuoted quote false (quote :: s)) := by
      rw [lexToken, if_neg hescape, if_pos rfl]
    exact freeRegions_token hnone hlex
  · have hlen := quotedWordLength_eq s
    cases hword : quotedWordLength s with
    | some n =>
      have hlex : lexToken doubleQuote s = (.quotedWord (some n), n + 2) := by
        rw [lexToken, if_neg hescape, if_neg hdouble, if_pos rfl, hword]
      rw [hword] at hlen
      rw [freeRegions_token hnone hlex, skipString, List.tail_cons, hlen]
      rfl
    | none =>
      have hlex : lexToken doubleQuote s = (.quotedWord none, s.length + 1) := by
        rw [lexToken, if_neg hescape, if_neg hdouble, if_pos rfl, hword]
      rw [hword] at hlen
      rw [freeRegions_token hnone hlex, skipString, List.tail_cons, hlen]
      rfl

theorem freeRegions_triviaLoop (n : ℕ) (s : List Byte) :
    freeRegions s = triviaRegions n s ++ freeRegions (s.drop (skipTriviaLoop n s)) := by
  induction n generalizing s with
  | zero => rfl
  | succ n ih =>
    cases s with
    | nil => rfl
    | cons c s =>
      cases h : triviaStep (c :: s) with
      | none => simp [triviaRegions, skipTriviaLoop, h]
      | some step =>
        obtain ⟨k, m⟩ := step
        rw [freeRegions_trivia h, ih]
        simp only [triviaRegions, skipTriviaLoop, h, List.append_assoc, List.drop_drop,
          Nat.add_comm m]

theorem wordContinue_trivia (h : wordContinue c) (s : List Byte) : triviaStep (c :: s) = none := by
  have hclass : ∀ c : Byte, wordContinue c → ¬isHigh c ∧ isBlank c = false ∧ c ≠ minus ∧
      c ≠ slash := forall_byte (by decide)
  obtain ⟨hhigh, hblank, hminus, hslash⟩ := hclass c h
  exact triviaStep_plain hhigh hblank hminus hslash s

theorem length_triviaRegions (n : ℕ) (s : List Byte) :
    (triviaRegions n s).length = skipTriviaLoop n s := by
  induction n generalizing s with
  | zero => rfl
  | succ n ih =>
    rw [triviaRegions, skipTriviaLoop]
    cases triviaStep s with
    | none => rfl
    | some step => simp [ih, Nat.add_comm]

/-- Between a `$` and the name of a parameter both see the same trivia. -/
theorem restRegions_lead (w : Bool) (s : List Byte) :
    restRegions w s = leadRegions s ++ restRegions (w && nameLead s == 0) (s.drop (nameLead s)) := by
  by_cases hhigh : s.head?.any isHigh
  · have hlead : nameLead s = 0 := nameLead_eq_zero (.inl hhigh)
    rw [leadRegions, if_pos hhigh, hlead]
    simp
  · have hlead : nameLead s = skipTriviaLoop s.length s := by rw [nameLead, if_neg hhigh, skipTrivia]
    rw [leadRegions, if_neg hhigh, hlead]
    have hlength := length_triviaRegions s.length s
    by_cases hzero : skipTriviaLoop s.length s = 0
    · rw [hzero] at hlength ⊢
      rw [List.length_eq_zero_iff.mp hlength]
      simp
    · cases s with
      | nil => exact absurd rfl hzero
      | cons c s =>
        have hword : ¬wordContinue c := by
          intro h
          apply hzero
          rw [List.length_cons, skipTriviaLoop, wordContinue_trivia h]
        have hopen : (w && skipTriviaLoop (c :: s).length (c :: s) == 0) = false := by
          rw [beq_false_of_ne hzero, Bool.and_false]
        rw [hopen, restRegions_stop w hword]
        exact freeRegions_triviaLoop _ _

end Constructs

section Pieces

def Agrees (w : Bool) (l : Lexeme Byte Piece) (r : List Byte) (X : List Region) : Prop :=
  restRegions w (l.text ++ r) = pieceRegions l r ++ X ↔
    ¬Clash w l r ∧ restRegions (carry w l) r = X

theorem plain_of_name : ∀ c : Byte, identifierContinue c ∨ c = colon ∨ c = question ∨
    c = semicolon → ¬isBlank c ∧ c ≠ minus ∧ c ≠ slash ∧ c ≠ quote ∧ c ≠ doubleQuote :=
  forall_byte (by decide)

theorem plain_name (hc : identifierContinue c ∨ c = colon ∨ c = question ∨ c = semicolon)
    (s : List Byte) : Plain c s := by
  obtain ⟨hblank, hminus, hslash, hquote, hdouble⟩ := plain_of_name c hc
  refine ⟨?_, hquote, hdouble⟩
  by_cases hhigh : isHigh c
  · exact .inl hhigh
  · exact .inr (triviaStep_plain hhigh (Bool.eq_false_iff.mpr hblank) hminus hslash s)

/-- A piece without quotes, comments or trivia. -/
theorem agrees_bytes (hpart : wordPart w ⟨k, t⟩ = (w, t)) (hmark : k.mark = none)
    (hkind : k ≠ .escapeString ∧ k ≠ .dollarString)
    (hregions : pieceRegions ⟨k, t⟩ r = .replicate t.length .outside)
    (hplain : ∀ u c v, t = u ++ c :: v → Plain c (v ++ r)) : Agrees w ⟨k, t⟩ r X := by
  have hclash : Clash w ⟨k, t⟩ r ↔ opensString r w t := by
    simp [Clash, hmark, hkind, hpart]
  rw [Agrees, hclash, carry, hpart, hregions]
  exact restRegions_append hplain

theorem agrees_names (hpart : wordPart w ⟨k, t⟩ = (w, t)) (hmark : k.mark = none)
    (hkind : k ≠ .escapeString ∧ k ≠ .dollarString)
    (hregions : pieceRegions ⟨k, t⟩ r = .replicate t.length .outside)
    (ht : ∀ c ∈ t, identifierContinue c ∨ c = colon ∨ c = question ∨ c = semicolon) :
    Agrees w ⟨k, t⟩ r X := by
  apply agrees_bytes hpart hmark hkind hregions
  intro u c v h
  exact plain_name (ht c (h ▸ List.mem_append_cons_self)) _

/-- A piece the tokenizer finds as well, at a byte that ends every open word. -/
theorem agrees_construct (ht : t = c :: s) (hword : ¬wordContinue c)
    (hregions : freeRegions (t ++ r) = pieceRegions ⟨k, t⟩ r ++ freeRegions r)
    (hpart : wordPart w ⟨k, t⟩ = (false, [])) (hmark : k.mark ≠ some backtick)
    (hkind : k ≠ .escapeString ∧ k ≠ .dollarString) : Agrees w ⟨k, t⟩ r X := by
  have hclash : ¬Clash w ⟨k, t⟩ r := by simp [Clash, hmark, hkind, hpart, opensString]
  have hrest : restRegions w (t ++ r) = freeRegions (t ++ r) := by
    rw [ht]
    exact restRegions_stop w hword
  rw [Agrees, and_iff_right hclash, carry, hpart, hrest, hregions]
  exact List.append_right_inj _

theorem agrees_trivia {trivia : Trivia}
    (h : triviaStep (c :: t ++ r) = some (trivia, (c :: t).length)) :
    Agrees w ⟨Sql.Trivia.piece trivia, c :: t⟩ r X := by
  rw [List.cons_append] at h
  have hword : ¬wordContinue c := by
    intro hword
    rw [wordContinue_trivia hword] at h
    cases h
  have hfree := freeRegions_trivia h
  rw [← List.cons_append, List.drop_left] at hfree
  cases trivia <;>
    exact agrees_construct rfl hword hfree rfl (Ne.symm (Option.some_ne_none _))
      ⟨Piece.noConfusion, Piece.noConfusion⟩

/-- A string that starts with a byte of words is one only where no word is open. -/
theorem agrees_string (hword : wordContinue c) {region : Region} (hregion : region ≠ .outside)
    (hfree : freeRegions (c :: t ++ r) =
      .replicate (c :: t).length region ++ freeRegions r)
    (hregions : pieceRegions ⟨k, c :: t⟩ r = .replicate (c :: t).length region)
    (hpart : wordPart w ⟨k, c :: t⟩ = (false, [])) (hmark : k.mark = none)
    (hkind : k = .escapeString ∨ k = .dollarString) : Agrees w ⟨k, c :: t⟩ r X := by
  have hclash : Clash w ⟨k, c :: t⟩ r ↔ w := by
    simp [Clash, hmark, hkind, hpart, opensString]
  rw [Agrees, hclash, carry, hpart, hregions]
  cases w with
  | false =>
    rw [and_iff_right Bool.false_ne_true, restRegions_false, hfree]
    exact List.append_right_inj _
  | true =>
    rw [List.cons_append, restRegions_true_cons, if_pos hword]
    exact iff_of_false (fun h ↦ hregion (List.cons.inj h).1.symm) fun h ↦ h.1 rfl

theorem restRegions_backtick (w : Bool) (s : List Byte) :
    ∃ Y, restRegions w (backtick :: s) = .outside :: Y := by
  have hplain : Plain backtick s :=
    ⟨.inr (triviaStep_plain (by decide) (by decide) (by decide) (by decide) s), by decide⟩
  have hmark : isEscapeMark backtick = false ∧ backtick ≠ dollar := by decide
  have hstring : ¬startsString backtick s := by simp [startsString, hmark]
  exact ⟨_, restRegions_plain hplain fun _ ↦ hstring⟩

theorem agrees_quoted (h : c = quote ∨ identifierQuote v2 c)
    (hlen : skipString c false (c :: t ++ r) = (c :: t).length) :
    Agrees w ⟨.quoted c, c :: t⟩ r X := by
  have hclass : ∀ c : Byte, c = quote ∨ identifierQuote true c →
      ¬wordContinue c ∧ ((c = quote ∨ c = doubleQuote) ∧ c ≠ backtick ∨ c = backtick) :=
    forall_byte (by decide)
  obtain ⟨hword, hc | rfl⟩ := hclass c (h.imp_right identifierQuote_true)
  · have hfree := freeRegions_quoted hc.1 (t ++ r)
    rw [← List.cons_append, hlen, List.drop_left] at hfree
    exact agrees_construct rfl hword hfree rfl (fun h ↦ hc.2 (Option.some.inj h))
      ⟨Piece.noConfusion, Piece.noConfusion⟩
  · obtain ⟨Y, hY⟩ := restRegions_backtick w (t ++ r)
    have hclash : Clash w ⟨.quoted backtick, backtick :: t⟩ r := .inl rfl
    have hregion : markRegion backtick ≠ .outside := by decide
    rw [Agrees, List.cons_append, hY]
    exact iff_of_false (fun h ↦ hregion (List.cons.inj h).1.symm) fun h ↦ h.1 hclash

section Parameter

theorem mem_take_numberLength (a : Bool) (s : List Byte) :
    ∀ b ∈ s.take (numberLength a s), isDigit b ∨ b = underscore := by
  induction s generalizing a with
  | nil => simp [numberLength]
  | cons c s ih =>
    simp only [numberLength]
    split_ifs with hdigit hunderscore
    · simpa [List.take_succ_cons, hdigit] using ih true
    · have hc : c = underscore := by simp_all
      simpa [List.take_succ_cons, hc] using ih false
    · simp

/-- The name of a parameter, behind its trivia. -/
theorem agrees_name (hk : (∃ mark, k = .dollar mark) ∨ ∃ numeric nameStart nameLength mark,
      k = .native numeric nameStart nameLength mark)
    (hstring : skipDollarString (dollar :: (t ++ r)) = 0) {name : List Byte}
    (hname : (t ++ r).drop (nameLead (t ++ r)) = name ++ r)
    (hlen : t.length = nameLead (t ++ r) + name.length)
    (hiff : ∀ X, restRegions (w && nameLead (t ++ r) == 0) (name ++ r) =
        .replicate name.length ((k.mark.map markRegion).getD .outside) ++ X ↔
      ¬Clash w ⟨k, dollar :: t⟩ r ∧ restRegions (carry w ⟨k, dollar :: t⟩) r = X) :
    Agrees w ⟨k, dollar :: t⟩ r X := by
  have hplain : Plain dollar (t ++ r) := plain_name (.inl (by decide)) _
  have hstarts : ¬startsString dollar (t ++ r) := by
    have hmark : isEscapeMark dollar = false := by decide
    simp [startsString, hmark, skipDollarQuote_eq, hstring]
  have hopen : nextOpen w dollar = w := by cases w <;> decide
  have hrest : restRegions w (dollar :: t ++ r) = .outside :: (leadRegions (t ++ r) ++
      restRegions (w && nameLead (t ++ r) == 0) (name ++ r)) := by
    rw [List.cons_append, restRegions_plain hplain fun _ ↦ hstarts, hopen, restRegions_lead, hname]
  have hregions : pieceRegions ⟨k, dollar :: t⟩ r = .outside :: (leadRegions (t ++ r) ++
      .replicate name.length ((k.mark.map markRegion).getD .outside)) := by
    have hsub : t.length - nameLead (t ++ r) = name.length := by omega
    rcases hk with ⟨mark, rfl⟩ | ⟨numeric, nameStart, nameLength, mark, rfl⟩ <;>
      simp only [pieceRegions, List.tail_cons, hsub, Piece.mark]
  rw [Agrees, hrest, hregions, ← hiff X, List.cons_append, List.append_assoc]
  exact Iff.trans ⟨fun h ↦ (List.cons.inj h).2, congrArg _⟩ (List.append_right_inj _)

theorem name_empty {lead : ℕ} (hlen : t.length = lead) :
    restRegions (w && lead == 0) ([] ++ r) = .replicate 0 .outside ++ X ↔
      ¬Clash w ⟨.dollar none, dollar :: t⟩ r ∧
        restRegions (carry w ⟨.dollar none, dollar :: t⟩) r = X := by
  have hclash : ¬Clash w ⟨.dollar none, dollar :: t⟩ r := by
    simp [Clash, Piece.mark, wordPart, opensString]
  have hcarry : carry w ⟨.dollar none, dollar :: t⟩ = (w && lead == 0) := by
    simp [carry, wordPart, wordAfter, hlen]
  rw [and_iff_right hclash, hcarry]
  rfl

theorem name_bytes {lead n : ℕ} {numeric : Bool} {name : List Byte} (ht : t.drop lead = name)
    (hname : ∀ c ∈ name, identifierContinue c) :
    restRegions (w && lead == 0) (name ++ r) = .replicate name.length .outside ++ X ↔
      ¬Clash w ⟨.native numeric (lead + 1) n none, dollar :: t⟩ r ∧
        restRegions (carry w ⟨.native numeric (lead + 1) n none, dollar :: t⟩) r = X := by
  have hpart : wordPart w ⟨.native numeric (lead + 1) n none, dollar :: t⟩ =
      (w && lead == 0, name) := by
    simp [wordPart, ht]
  have hclash : Clash w ⟨.native numeric (lead + 1) n none, dollar :: t⟩ r ↔
      opensString r (w && lead == 0) name := by
    rw [Clash, hpart]
    simp [Piece.mark]
  rw [hclash, carry, hpart]
  apply restRegions_append
  intro u c v h
  exact plain_name (.inl (hname c (h ▸ List.mem_append_cons_self))) _

theorem name_quoted {w' : Bool} {nameStart n : ℕ} {name : List Byte}
    (hk : k = .dollar (some c) ∨ k = .native false nameStart n (some c))
    (hmark : identifierQuote v2 c)
    (hlen : skipString c false (c :: name ++ r) = (c :: name).length) :
    restRegions w' (c :: name ++ r) =
        .replicate (c :: name).length ((k.mark.map markRegion).getD .outside) ++ X ↔
      ¬Clash w ⟨k, dollar :: t⟩ r ∧ restRegions (carry w ⟨k, dollar :: t⟩) r = X := by
  have hclass : ∀ c : Byte, identifierQuote true c →
      ¬wordContinue c ∧ (c = doubleQuote ∧ c ≠ backtick ∨ c = backtick) :=
    forall_byte (by decide)
  have hregion : (k.mark.map markRegion).getD .outside = markRegion c := by
    rcases hk with rfl | rfl <;> rfl
  have hpart : wordPart w ⟨k, dollar :: t⟩ = (false, []) := by rcases hk with rfl | rfl <;> rfl
  have hkind : k.mark = some c ∧ k ≠ .escapeString ∧ k ≠ .dollarString := by
    rcases hk with rfl | rfl <;> exact ⟨rfl, Piece.noConfusion, Piece.noConfusion⟩
  rw [hregion]
  obtain ⟨hword, hc | rfl⟩ := hclass c (identifierQuote_true hmark)
  · have hfree := freeRegions_quoted (.inr hc.1) (name ++ r)
    rw [← List.cons_append, hlen, List.drop_left] at hfree
    have hclash : ¬Clash w ⟨k, dollar :: t⟩ r := by
      simp [Clash, hkind, hc.2, hpart, opensString]
    rw [and_iff_right hclash, carry, hpart, List.cons_append, restRegions_stop w' hword,
      ← List.cons_append, hfree]
    exact List.append_right_inj _
  · obtain ⟨Y, hY⟩ := restRegions_backtick w' (name ++ r)
    have hclash : Clash w ⟨k, dollar :: t⟩ r := .inl hkind.1
    have hne : markRegion backtick ≠ .outside := by decide
    rw [List.cons_append, hY]
    exact iff_of_false (fun h ↦ hne (List.cons.inj h).1.symm) fun h ↦ h.1 hclash

theorem agrees_parameter (hstring : skipDollarString (dollar :: (t ++ r)) = 0)
    (h : parameterTurn v2 (t ++ r) = (k, t.length + 1)) : Agrees w ⟨k, dollar :: t⟩ r X := by
  obtain ⟨lead, hlead⟩ : ∃ n, nameLead (t ++ r) = n := ⟨_, rfl⟩
  cases hrest : (t ++ r).drop lead with
  | nil =>
    simp only [parameterTurn, hlead, hrest, Prod.mk.injEq] at h
    obtain ⟨rfl, hlen⟩ := h
    have hlen : t.length = lead := by omega
    have hr : (t ++ r).drop (nameLead (t ++ r)) = [] ++ r := by
      rw [hlead, ← hlen, List.drop_left]
      rfl
    refine agrees_name (.inl ⟨none, rfl⟩) hstring hr (by rw [hlead, hlen]; rfl) fun X ↦ ?_
    rw [hlead]
    exact name_empty hlen
  | cons c rest =>
    have hcases := @parameterTurn_cons c v2 lead rest (t ++ r) hlead hrest
    have hle : lead ≤ t.length := by
      rw [h] at hcases
      rcases hcases with ⟨-, heq⟩ | ⟨-, -, heq⟩ | ⟨-, -, heq⟩
      all_goals
        have := (Prod.mk.inj heq).2
        omega
    have hname : (t ++ r).drop (nameLead (t ++ r)) = t.drop lead ++ r := by
      rw [hlead, List.drop_append_of_le_length hle]
    have hlen : t.length = nameLead (t ++ r) + (t.drop lead).length := by
      rw [hlead, List.length_drop]
      omega
    rw [h] at hcases
    rw [hlead] at hname
    have htake {n : ℕ} (hn : (t.drop lead).length = n) : (c :: rest).take n = t.drop lead := by
      rw [← hrest, hname, ← hn, List.take_left]
    obtain ⟨hdigit, heq⟩ | ⟨hdigit, hmark, heq⟩ | ⟨hdigit, hmark, heq⟩ := hcases
    · obtain ⟨rfl, hn⟩ := Prod.mk.inj heq
      have hn : (t.drop lead).length = numberLength false (c :: rest) := by
        rw [List.length_drop]
        omega
      refine agrees_name (.inr ⟨_, _, _, _, rfl⟩) hstring (hlead ▸ hname) hlen fun X ↦ ?_
      rw [hlead]
      apply name_bytes rfl
      have hclass : ∀ b : Byte, isDigit b ∨ b = underscore → identifierContinue b :=
        forall_byte (by decide)
      intro b hb
      rw [← htake hn] at hb
      exact hclass b (mem_take_numberLength _ _ b hb)
    · dsimp only at heq
      obtain ⟨hkind, hn⟩ := Prod.mk.inj heq
      have hn : (t.drop lead).length = skipString c false (c :: rest) := by
        rw [List.length_drop]
        omega
      obtain ⟨name, hname'⟩ : ∃ name, t.drop lead = c :: name :=
        ⟨_, by rw [← htake hn, skipString, List.take_succ_cons]⟩
      rw [← hrest, hname, hname'] at hn
      rw [hname'] at hname hlen
      have hk : k = .dollar (some c) ∨ ∃ m, k = .native false (lead + 2) m (some c) := by
        rw [hkind]
        split_ifs
        all_goals first
          | exact .inl rfl
          | exact .inr ⟨_, rfl⟩
      have hform : (∃ mark, k = .dollar mark) ∨ ∃ numeric nameStart nameLength mark,
          k = .native numeric nameStart nameLength mark := by
        rcases hk with rfl | ⟨m, rfl⟩
        · exact .inl ⟨_, rfl⟩
        · exact .inr ⟨_, _, _, _, rfl⟩
      refine agrees_name hform hstring (hlead ▸ hname) hlen fun X ↦ ?_
      rcases hk with hk | ⟨m, hk⟩
      · exact @name_quoted v2 w c k t r X _ 0 0 name (.inl hk) hmark hn.symm
      · exact @name_quoted v2 w c k t r X _ _ m name (.inr hk) hmark hn.symm
    · dsimp only at heq
      obtain ⟨hkind, hn⟩ := Prod.mk.inj heq
      have hn : (t.drop lead).length = ((c :: rest).takeWhile nameChar).length := by
        rw [List.length_drop]
        omega
      have htake' : t.drop lead = (c :: rest).takeWhile nameChar := by
        rw [← htake hn]
        exact (List.prefix_iff_eq_take.mp (List.takeWhile_prefix nameChar)).symm
      split_ifs at hkind with hzero
      · subst hkind
        have hlen' : t.length = lead := by
          rw [hzero, List.length_drop] at hn
          omega
        have hnil : t.drop lead = [] := List.drop_eq_nil_of_le hlen'.le
        rw [hnil] at hname hlen
        refine agrees_name (.inl ⟨none, rfl⟩) hstring (hlead ▸ hname) hlen fun X ↦ ?_
        rw [hlead]
        exact name_empty hlen'
      · subst hkind
        refine agrees_name (.inr ⟨_, _, _, _, rfl⟩) hstring (hlead ▸ hname) hlen fun X ↦ ?_
        rw [hlead]
        apply name_bytes rfl
        have hclass : ∀ b : Byte, nameChar b → identifierContinue b := forall_byte (by decide)
        intro b hb
        rw [htake'] at hb
        exact hclass b (List.mem_takeWhile_imp hb)

end Parameter

end Pieces

/-- One piece of the planner. -/
theorem agrees_piece (ht : t ≠ []) (h : turn v2 before (t ++ r) = (k, t.length)) :
    Agrees w ⟨k, t⟩ r X := by
  obtain ⟨c, t, rfl⟩ := List.exists_cons_of_ne_nil ht
  simp only [turn, List.cons_append] at h
  cases hstep : triviaStep (c :: (t ++ r)) with
  | some step =>
    obtain ⟨trivia, n⟩ := step
    rw [hstep] at h
    obtain ⟨rfl, rfl⟩ := Prod.mk.inj h
    exact agrees_trivia hstep
  | none =>
    rw [hstep] at h
    revert h
    have hempty : 1 = (c :: t).length → t = [] := fun h ↦
      List.length_eq_zero_iff.mp (Nat.succ.inj h).symm
    have htake {p : Byte → Bool} (hn : ((t ++ r).takeWhile p).length + 1 = (c :: t).length) :
        ∀ b ∈ t, p b := (length_takeWhile_append.mp (Nat.succ.inj hn)).1
    apply tokenTurn_cases (motive := fun x ↦ x = (k, (c :: t).length) → Agrees w ⟨k, c :: t⟩ r X)
    case semicolon =>
      intro hc heq
      obtain ⟨rfl, hlen⟩ := Prod.mk.inj heq
      obtain rfl := hempty hlen
      exact agrees_names rfl rfl ⟨Piece.noConfusion, Piece.noConfusion⟩ rfl (by simp [hc])
    case escapeString =>
      intro hmark hhead heq
      obtain ⟨rfl, hlen⟩ := Prod.mk.inj heq
      have hclass : ∀ c : Byte, isEscapeMark c → wordContinue c := forall_byte (by decide)
      have hlex : lexToken c (t ++ r) = (.escapeString, (c :: t).length) := by
        rw [lexToken, if_pos ⟨hmark, hhead⟩, ← hlen]
        rfl
      have hfree := freeRegions_token hstep hlex
      rw [← List.cons_append, List.drop_left] at hfree
      exact agrees_string (hclass c hmark) Region.noConfusion hfree rfl rfl rfl (.inl rfl)
    case quoted =>
      intro hc heq
      obtain ⟨rfl, hlen⟩ := Prod.mk.inj heq
      exact agrees_quoted hc hlen
    case dollarString =>
      intro hc hne heq
      subst hc
      obtain ⟨rfl, hlen⟩ := Prod.mk.inj heq
      have hlex : lexToken dollar (t ++ r) = (.dollarQuote, (dollar :: t).length) := by
        have hclass : isEscapeMark dollar = false ∧ dollar ≠ quote ∧ dollar ≠ doubleQuote := by
          decide
        rw [← skipDollarQuote_eq] at hne hlen
        rw [lexToken, if_neg (by simp [hclass]), if_neg hclass.2.1, if_neg hclass.2.2,
          if_pos ⟨rfl, hne⟩, hlen]
      have hfree := freeRegions_token hstep hlex
      rw [← List.cons_append, List.drop_left] at hfree
      exact agrees_string (by decide) Region.noConfusion hfree rfl rfl rfl (.inr rfl)
    case parameter =>
      intro hc hstring heq
      subst hc
      exact agrees_parameter hstring heq
    case identifier =>
      intro hc heq
      obtain ⟨rfl, hlen⟩ := Prod.mk.inj heq
      have hstart : identifierContinue c := by simp [identifierContinue, hc]
      apply agrees_names rfl rfl ⟨Piece.noConfusion, Piece.noConfusion⟩ rfl
      exact List.forall_mem_cons.mpr ⟨.inl hstart, fun b hb ↦ .inl (htake hlen b hb)⟩
    case cast =>
      intro hc heq
      obtain ⟨rfl, hlen⟩ := Prod.mk.inj heq
      apply agrees_names rfl rfl ⟨Piece.noConfusion, Piece.noConfusion⟩ rfl
      refine List.forall_mem_cons.mpr ⟨.inr (.inl hc), fun b hb ↦ .inr (.inl ?_)⟩
      simpa using htake hlen b hb
    case named =>
      intro hc heq
      obtain ⟨rfl, hlen⟩ := Prod.mk.inj heq
      have hclass : ∀ b : Byte, parameterChar b → identifierContinue b := forall_byte (by decide)
      apply agrees_names rfl rfl ⟨Piece.noConfusion, Piece.noConfusion⟩ rfl
      exact List.forall_mem_cons.mpr
        ⟨.inr (.inl hc), fun b hb ↦ .inl (hclass b (htake hlen b hb))⟩
    case questions =>
      intro hc heq
      obtain ⟨rfl, hlen⟩ := Prod.mk.inj heq
      apply agrees_names rfl rfl ⟨Piece.noConfusion, Piece.noConfusion⟩ rfl
      refine List.forall_mem_cons.mpr ⟨.inr (.inr (.inl hc)), fun b hb ↦ .inr (.inr (.inl ?_))⟩
      simpa using htake hlen b hb
    case positional =>
      intro hc heq
      obtain ⟨rfl, hlen⟩ := Prod.mk.inj heq
      obtain rfl := hempty hlen
      exact agrees_names rfl rfl ⟨Piece.noConfusion, Piece.noConfusion⟩ rfl (by simp [hc])
    case other =>
      intro hquote heq
      obtain ⟨rfl, hlen⟩ := Prod.mk.inj heq
      obtain rfl := hempty hlen
      have hdouble : c ≠ doubleQuote := by
        rintro rfl
        exact hquote (.inr (by simp [identifierQuote]))
      apply agrees_bytes rfl rfl ⟨Piece.noConfusion, Piece.noConfusion⟩ rfl
      intro u d v h
      cases u with
      | nil =>
        obtain ⟨rfl, rfl⟩ := List.cons.inj h
        exact ⟨.inr hstep, fun h ↦ hquote (.inl h), hdouble⟩
      | cons a u => simp at h

theorem agrees_lexes {ls : List (Lexeme Byte Piece)} (h : (planner v2).Lexes before ls) :
    restRegions w (source ls) = piecesRegions ls ↔ ¬Clashes w ls := by
  induction h generalizing w with
  | nil => simp [piecesRegions, Clashes]
  | @cons before l ls hne hstep _ ih =>
    rw [source_cons, piecesRegions, Clashes, not_or, ← ih]
    exact agrees_piece hne hstep

/-- The tokenizer and the planner see every byte in the same region exactly where no piece of
the planner clashes with a word of the tokenizer. -/
theorem regions_eq_iff (v2 : Bool) (sql : List Byte) :
    tokenizerRegions sql = plannerRegions v2 sql ↔ ¬Clashes false ((planner v2).scan sql) := by
  have h := @agrees_lexes v2 false none _ ((planner v2).scan_lexes sql)
  rw [(planner v2).source_scan] at h
  exact h

/-- A dollar string behind a high byte, with a `;` inside for the planner only. -/
theorem not_regions_eq : tokenizerRegions (ascii "x" ++ [0xc3, 0xa9] ++ ascii "$a$;$a$") ≠
    plannerRegions false (ascii "x" ++ [0xc3, 0xa9] ++ ascii "$a$;$a$") := by decide

end PdoDuckdb.Transaction
