import PdoDuckdb.Transaction.Statements
import PdoDuckdb.Transaction.Regions

namespace PdoDuckdb.Transaction

open Byte Library.Scanning Sql

/-- The loop of `pdo_duckdb_sql_may_have_multiple_statements`, with so many bytes of a
Unicode space to go. -/
def moreAfter : ℕ → List Byte → Bool
  | _, [] => false
  | skip + 1, _ :: s => moreAfter skip s
  | 0, c :: s =>
    if spaceLength (c :: s) ≠ 0 then moreAfter (spaceLength (c :: s) - 1) s
    else if c ≠ semicolon ∧ ¬ isBlank c then true
    else moreAfter 0 s

/-- `pdo_duckdb_sql_may_have_multiple_statements`. -/
def mayHaveMultipleStatements (sql : List Byte) : Bool :=
  match sql.dropWhile (· ≠ semicolon) with
  | [] => false
  | _ :: s => moreAfter 0 s

section Tails

variable {c : Byte} {k : ℕ} {s t u v : List Byte}

/-- Only semicolons, blanks and Unicode spaces. -/
def Trailing (t : List Byte) : Prop := moreAfter 0 t = false

def isTrailing (c : Byte) : Bool := c == semicolon || isBlank c || isHigh c

theorem moreAfter_append (u v : List Byte) : moreAfter u.length (u ++ v) = moreAfter 0 v := by
  induction u with
  | nil => rfl
  | cons c u ih => exact ih

theorem isHigh_of_spaceLength (h : spaceLength (c :: s) ≠ 0) : isHigh c := by
  by_contra hlow
  have hne : ∀ c : Byte, ¬ isHigh c → c ≠ 0xc2 ∧ c ≠ 0xe2 ∧ c ≠ 0xe3 ∧ c ≠ 0xef := forall_byte (by decide)
  obtain ⟨h₁, h₂, h₃, h₄⟩ := hne c hlow
  match s with
  | [] => exact h rfl
  | [b] => simp [spaceLength, h₁] at h
  | b :: d :: s => simp [spaceLength, h₁, h₂, h₃, h₄] at h

/-- Such a text starts with a Unicode space, or with one byte, and goes on. -/
theorem trailing_cons (h : Trailing (c :: s)) :
    (∃ u v, c :: s = u ++ v ∧ spaceLength (c :: s) = u.length ∧ u ≠ [] ∧ (∀ b ∈ u, isHigh b) ∧ Trailing v) ∨
      spaceLength (c :: s) = 0 ∧ (c = semicolon ∨ isBlank c) ∧ Trailing s := by
  unfold Trailing moreAfter at h
  have hhigh : ∀ b : Byte, isContinuation b → isHigh b := forall_byte (by decide)
  by_cases hspace : spaceLength (c :: s) = 0
  · rw [if_neg (not_not_intro hspace)] at h
    split_ifs at h with hother
    have hc : c = semicolon ∨ isBlank c := by
      by_contra hc
      exact hother (not_or.mp hc)
    exact .inr ⟨hspace, hc, h⟩
  · obtain ⟨t, v, rfl, hlen, ht⟩ := exists_continuation hspace
    rw [if_pos hspace, hlen, Nat.add_sub_cancel, moreAfter_append] at h
    refine .inl ⟨c :: t, v, rfl, hlen, List.cons_ne_nil _ _, ?_, h⟩
    exact List.forall_mem_cons.mpr ⟨isHigh_of_spaceLength hspace, fun b hb ↦ hhigh b (ht b hb)⟩

theorem trailing_bytes (h : Trailing t) : ∀ c ∈ t, isTrailing c := by
  induction hn : t.length using Nat.strong_induction_on generalizing t with
  | _ n ih =>
    cases t with
    | nil => exact fun c hc ↦ absurd hc List.not_mem_nil
    | cons c s =>
      rcases trailing_cons h with ⟨u, v, heq, -, hne, hu, hv⟩ | ⟨-, hc, hs⟩
      · have hpos := List.length_pos_iff.mpr hne
        have hlen := congrArg List.length heq
        rw [List.length_append] at hlen
        rw [heq]
        intro b hb
        rcases List.mem_append.mp hb with hb | hb
        · simp [isTrailing, hu b hb]
        · exact ih v.length (by omega) hv rfl b hb
      · rw [List.length_cons] at hn
        refine List.forall_mem_cons.mpr ⟨?_, ih s.length (by omega) hs rfl⟩
        rcases hc with rfl | hc
        · rfl
        · simp [isTrailing, hc]

/-- A byte that is not high is not in a Unicode space. -/
theorem trailing_suffix (h : Trailing (u ++ c :: v)) (hc : ¬ isHigh c) : Trailing (c :: v) := by
  induction hn : u.length using Nat.strong_induction_on generalizing u with
  | _ n ih =>
    cases u with
    | nil => exact h
    | cons d u =>
      rcases trailing_cons h with ⟨w, x, heq, -, hne, hw, hx⟩ | ⟨-, -, hs⟩
      · have happend : (d :: u) ++ c :: v = w ++ x := heq
        rcases List.append_eq_append_iff.mp happend with ⟨a, rfl, hcv⟩ | ⟨a, hu, rfl⟩
        · cases a with
          | nil =>
            rw [List.nil_append] at hcv
            rw [hcv]
            exact hx
          | cons b a =>
            obtain ⟨rfl, -⟩ := List.cons.inj hcv
            exact absurd (hw c (by simp)) hc
        · have hlen := congrArg List.length hu
          have hpos := List.length_pos_iff.mpr hne
          rw [List.length_append] at hlen
          exact ih a.length (by omega) hx rfl
      · rw [List.length_cons] at hn
        exact ih u.length (by omega) hs rfl

end Tails

section Stopping

variable {c mark : Byte} {n : ℕ} {k : Lex} {s d : List Byte}

/-- What reaches as far as `n` bytes ends with a byte of its own there, or where the text
does. -/
def Stops (n : ℕ) (s : List Byte) : Prop :=
  s.length ≤ n ∨ ∃ i c, n = i + 1 ∧ s[i]? = some c ∧ ¬ isTrailing c

theorem Stops.cons (h : Stops n s) (c : Byte) : Stops (n + 1) (c :: s) := by
  rcases h with h | ⟨i, d, rfl, hd, hstop⟩
  · exact .inl (Nat.succ_le_succ h)
  · exact .inr ⟨i + 1, d, rfl, hd, hstop⟩

theorem stops_one (hc : ¬ isTrailing c) (s : List Byte) : Stops 1 (c :: s) := .inr ⟨0, c, rfl, rfl, hc⟩

theorem quotedLength_stops (hmark : ¬ isTrailing mark) (escapes : Bool) (s : List Byte) :
    Stops (quotedLength mark escapes s) s := by
  fun_induction quotedLength mark escapes s with
  | case1 | case2 => exact .inl (Nat.le_refl _)
  | case3 c d s _ ih => exact (ih.cons d).cons c
  | case4 c d s _ _ _ ih => exact (ih.cons d).cons c
  | case5 c d s _ hc =>
    obtain rfl := eq_of_beq hc
    exact stops_one hmark _
  | case6 c d s _ _ ih => exact ih.cons c

theorem blockCommentLength_stops {depth : ℕ} (h : depth ≠ 0) (s : List Byte) :
    Stops (blockCommentLength depth s) s := by
  fun_induction blockCommentLength depth s with
  | case1 => exact absurd rfl h
  | case2 | case3 => exact .inl (Nat.le_refl _)
  | case4 depth c d s _ ih => exact ((ih (by omega)).cons d).cons c
  | case5 depth c d s _ hclose ih =>
    cases depth with
    | zero =>
      simp only [Bool.and_eq_true, beq_iff_eq] at hclose
      obtain ⟨rfl, rfl⟩ := hclose
      have hlength : blockCommentLength 0 s = 0 := by cases s <;> rfl
      rw [hlength]
      exact (stops_one (by decide) s).cons star
    | succ depth => exact ((ih (by omega)).cons d).cons c
  | case6 depth c d s _ _ ih => exact (ih (by omega)).cons c

theorem delimitedLength_stops (hd : d.getLast? = some dollar) (s : List Byte) :
    Stops (delimitedLength d s) s := by
  induction s with
  | nil => exact .inl (Nat.le_refl _)
  | cons c s ih =>
    rw [delimitedLength]
    split_ifs with hprefix
    · obtain ⟨u, hu⟩ := List.isPrefixOf_iff_prefix.mp hprefix
      have hne : d ≠ [] := by
        rintro rfl
        cases hd
      have hpos := List.length_pos_iff.mpr hne
      rw [List.getLast?_eq_getElem?] at hd
      refine .inr ⟨d.length - 1, dollar, by omega, ?_, by decide⟩
      rw [← hu, List.getElem?_append_left (by omega), hd]
    · exact ih.cons c

theorem stops_drop {m : ℕ} (h : Stops n (s.drop m)) (hm : m ≤ s.length) : Stops (n + m) s := by
  rcases h with h | ⟨i, c, rfl, hc, hstop⟩
  · rw [List.length_drop] at h
    exact .inl (by omega)
  · rw [List.getElem?_drop] at hc
    exact .inr ⟨m + i, c, by omega, hc, hstop⟩

theorem skipDollarQuote_stops (h : skipDollarQuote s ≠ 0) : Stops (skipDollarQuote s) s := by
  unfold skipDollarQuote at h ⊢
  dsimp only at h ⊢
  split_ifs at h ⊢ with htag
  · rw [List.head?_drop] at htag
    obtain ⟨hlt, hdollar⟩ := List.getElem?_eq_some_iff.mp htag
    apply stops_drop (delimitedLength_stops ?_ _) hlt
    rw [List.getLast?_take, if_neg (Nat.succ_ne_zero _), Nat.add_sub_cancel, htag]
    rfl
  · exact absurd rfl h

theorem quotedWordLength_stops (h : quotedWordLength s = some n) : Stops (n + 1) s := by
  fun_induction quotedWordLength s generalizing n with
  | case1 => cases h
  | case2 c hc =>
    cases h
    exact .inl (Nat.le_refl _)
  | case3 => cases h
  | case4 c d s _ _ ih =>
    obtain ⟨m, hm, rfl⟩ := Option.map_eq_some_iff.mp h
    exact ((ih hm).cons d).cons c
  | case5 c d s hc =>
    cases h
    obtain rfl := eq_of_beq hc
    exact stops_one (by decide) _
  | case6 c d s _ ih =>
    obtain ⟨m, hm, rfl⟩ := Option.map_eq_some_iff.mp h
    exact (ih hm).cons c

def Shut (n : ℕ) (s : List Byte) : Prop := Stops n s ∨ ∃ c v, s.drop n = c :: v ∧ ¬ isHigh c

theorem Shut.cons (h : Shut n s) (c : Byte) : Shut (n + 1) (c :: s) := h.imp (Stops.cons · c) id

theorem lineCommentLength_shut (s : List Byte) : Shut (lineCommentLength s) s := by
  induction s with
  | nil => exact .inl (.inl (Nat.le_refl _))
  | cons c s ih =>
    by_cases hc : c != carriageReturn && c != newline
    · have hlength : lineCommentLength (c :: s) = lineCommentLength s + 1 := by
        simp [lineCommentLength, hc]
      rw [hlength]
      exact ih.cons c
    · have hhigh : ∀ c : Byte, ¬ (c != carriageReturn && c != newline) → ¬ isHigh c :=
        forall_byte (by decide)
      have hlength : lineCommentLength (c :: s) = 0 := by
        simp [lineCommentLength, hc]
      rw [hlength]
      exact .inr ⟨c, s, rfl, hhigh c hc⟩

/-- What goes on after what shuts is trailing, when what follows its first semicolon is. -/
theorem Shut.trailing {a w v : List Byte} (h : Shut (a ++ semicolon :: w).length (a ++ semicolon :: w ++ v))
    (htrail : Trailing (w ++ v)) : Trailing v := by
  rcases h with (h | ⟨i, c, hlength, hc, hstop⟩) | ⟨c, u, hdrop, hhigh⟩
  · rw [List.length_append] at h
    have hv : v = [] := List.eq_nil_of_length_eq_zero (by omega)
    rw [hv]
    rfl
  · have hmem : c ∈ semicolon :: (w ++ v) := by
      rw [List.append_assoc, List.cons_append, List.getElem?_append_right] at hc
      · exact List.mem_of_getElem? hc
      · rw [List.length_append, List.length_cons] at hlength
        omega
    rcases List.mem_cons.mp hmem with rfl | hmem
    · exact absurd rfl hstop
    · exact absurd (trailing_bytes htrail c hmem) hstop
  · rw [List.drop_left] at hdrop
    rw [hdrop] at htrail ⊢
    exact trailing_suffix htrail hhigh

end Stopping

section Turns

variable {c : Byte} {n : ℕ} {k : Lex} {s : List Byte}

theorem triviaStep_shut {t : Trivia} (h : triviaStep (c :: s) = some (t, n)) :
    semicolon ∉ (c :: s).take n ∨ Shut n (c :: s) := by
  have hhigh : ∀ b : Byte, isContinuation b → b ≠ semicolon := forall_byte (by decide)
  unfold triviaStep at h
  dsimp only at h
  split_ifs at h with hspace hblank hline hblock
  · cases h
    obtain ⟨u, v, rfl, hlength, hu⟩ := exists_continuation hspace
    rw [hlength, List.take_succ_cons, List.take_left]
    refine .inl fun hmem ↦ ?_
    rcases List.mem_cons.mp hmem with rfl | hmem
    · exact absurd (isHigh_of_spaceLength hspace) (by decide)
    · exact hhigh _ (hu _ hmem) rfl
  · cases h
    refine .inl fun hmem ↦ ?_
    obtain rfl := List.mem_singleton.mp hmem
    exact absurd hblank (by decide)
  · cases h
    obtain ⟨d, v, rfl⟩ := List.exists_cons_of_ne_nil (l := s) (by rintro rfl; cases hline.2)
    exact .inr (((lineCommentLength_shut v).cons d).cons c)
  · cases h
    obtain ⟨d, v, rfl⟩ := List.exists_cons_of_ne_nil (l := s) (by rintro rfl; cases hblock.2)
    exact .inr (.inl (((blockCommentLength_stops Nat.one_ne_zero v).cons d).cons c))

theorem lexToken_shut (hc : c ≠ semicolon) (s : List Byte) :
    (lexToken c s).1 ≠ .symbol semicolon ∧
      (semicolon ∉ (c :: s).take (lexToken c s).2 ∨ Shut (lexToken c s).2 (c :: s)) := by
  unfold lexToken
  split_ifs with hescape hquote hdouble hdollar hword
  · obtain ⟨d, v, rfl⟩ := List.exists_cons_of_ne_nil (l := s) (by rintro rfl; cases hescape.2)
    have hstops : Stops (quotedLength quote true v) v := quotedLength_stops (by decide) true v
    exact ⟨by simp, .inr (.inl ((hstops.cons d).cons c))⟩
  · have hstops : Stops (quotedLength quote false s) s := quotedLength_stops (by decide) false s
    exact ⟨by simp, .inr (.inl (hstops.cons c))⟩
  · cases hlength : quotedWordLength s with
    | none => exact ⟨by simp, .inr (.inl (.inl (Nat.le_refl _)))⟩
    | some n => exact ⟨by simp, .inr (.inl ((quotedWordLength_stops hlength).cons c))⟩
  · exact ⟨by simp, .inr (.inl (skipDollarQuote_stops hdollar.2))⟩
  · have hne : ∀ b : Byte, wordContinue b → b ≠ semicolon := forall_byte (by decide)
    refine ⟨by simp, .inl fun hmem ↦ ?_⟩
    rw [List.take_succ_cons] at hmem
    rcases List.mem_cons.mp hmem with rfl | hmem
    · exact hc rfl
    · rw [← List.prefix_iff_eq_take.mp (List.takeWhile_prefix wordContinue)] at hmem
      exact hne _ (List.mem_takeWhile_imp hmem) rfl
  · refine ⟨by simpa using hc, .inl fun hmem ↦ ?_⟩
    exact hc (List.mem_singleton.mp hmem).symm

end Turns

section Tokens

variable {c : Byte} {n : ℕ} {k : Lex} {s t u v : List Byte}

def restTokens (s : List Byte) : List Token := (tokenizer.run s.length none s).filterMap token?

theorem restTokens_cons (h : lexTurn none (c :: s) = (k, n)) :
    restTokens (c :: s) = (token? ⟨k, (c :: s).take n⟩).toList ++ restTokens ((c :: s).drop n) := by
  unfold restTokens
  rw [tokenizer.run_cons h, List.filterMap_cons, tokenizer_run _ _ none]
  cases token? ⟨k, (c :: s).take n⟩ <;> rfl

theorem restTokens_blank (h : triviaStep (c :: s) = some (.blank, n)) :
    restTokens (c :: s) = restTokens ((c :: s).drop n) := by
  have hturn : lexTurn none (c :: s) = (.blank, n) := by
    rw [lexTurn, h]
    rfl
  rw [restTokens_cons hturn]
  rfl

theorem lexTurn_semicolon (s : List Byte) : lexTurn none (semicolon :: s) = (.symbol semicolon, 1) := by
  rw [lexTurn, triviaStep_plain (by decide) (by decide) (by decide) (by decide)]
  rfl

theorem restTokens_semicolon (s : List Byte) :
    restTokens (semicolon :: s) = ⟨.semicolon, []⟩ :: restTokens s := by
  rw [restTokens_cons (lexTurn_semicolon s)]
  rfl

/-- After the first semicolon there are none but semicolons. -/
theorem restTokens_trailing (h : Trailing t) : ∀ a ∈ restTokens t, a.kind = .semicolon := by
  induction hn : t.length using Nat.strong_induction_on generalizing t with
  | _ n ih =>
    cases t with
    | nil => exact fun a ha ↦ absurd ha List.not_mem_nil
    | cons c s =>
      rcases trailing_cons h with ⟨u, v, heq, hlen, hne, -, hv⟩ | ⟨hspace, hc, hs⟩
      · have hpos := List.length_pos_iff.mpr hne
        have hlength := congrArg List.length heq
        rw [List.length_append] at hlength
        have hstep : triviaStep (c :: s) = some (.blank, u.length) := by
          rw [triviaStep, if_pos (by omega), hlen]
        rw [restTokens_blank hstep, heq, List.drop_left]
        exact ih v.length (by omega) hv rfl
      · rw [List.length_cons] at hn
        have hrest := ih s.length (by omega) hs rfl
        by_cases hblank : isBlank c
        · have hstep : triviaStep (c :: s) = some (.blank, 1) := by
            rw [triviaStep, if_neg (not_not_intro hspace), if_pos hblank]
          rw [restTokens_blank hstep]
          exact hrest
        · obtain rfl := hc.resolve_right hblank
          rw [restTokens_semicolon]
          exact List.forall_mem_cons.mpr ⟨rfl, hrest⟩

/-- No turn but that of a semicolon makes its token, or goes on past one without shutting. -/
theorem lexTurn_shut (hc : c ≠ semicolon) (h : lexTurn none (c :: s) = (k, n)) :
    k ≠ .symbol semicolon ∧ (semicolon ∉ (c :: s).take n ∨ Shut n (c :: s)) := by
  rw [lexTurn] at h
  cases hstep : triviaStep (c :: s) with
  | none =>
    have hshut := lexToken_shut hc s
    rw [hstep] at h
    dsimp only at h
    rwa [h] at hshut
  | some r =>
    obtain ⟨t, m⟩ := r
    rw [hstep] at h
    cases h
    exact ⟨by cases t <;> simp [Trivia.lex], triviaStep_shut hstep⟩

theorem token?_semicolon {l : Lexeme Byte Lex} {a : Token} (hl : l.kind ≠ .symbol semicolon)
    (h : token? l = some a) : a.kind ≠ .semicolon := by
  unfold token? at h
  split at h <;> (try split_ifs at h) <;> cases h <;> simp_all

/-- Whatever follows the first semicolon is trailing. -/
def Single (s : List Byte) : Prop :=
  ∀ a t, s = a ++ semicolon :: t → semicolon ∉ a → Trailing t

theorem single_of_not_multiple (h : mayHaveMultipleStatements s = false) : Single s := by
  rintro a t rfl ha
  have hdrop : (a ++ semicolon :: t).dropWhile (· ≠ semicolon) = semicolon :: t := by
    rw [List.dropWhile_append_of_pos]
    · rfl
    · intro c hc
      have hne : c ≠ semicolon := fun heq ↦ ha (heq ▸ hc)
      simpa using hne
  rw [mayHaveMultipleStatements, hdrop] at h
  exact h

theorem Single.of_append (h : Single (u ++ v)) (hu : semicolon ∉ u) : Single v := by
  rintro a t rfl ha
  apply h (u ++ a) t (List.append_assoc u a _).symm
  rw [List.mem_append]
  exact fun hmem ↦ hmem.elim hu ha

/-- The tokens of such a text are those of one statement, and semicolons. -/
theorem restTokens_single (h : Single s) : ∃ statement rest,
    restTokens s = statement ++ rest ∧ (∀ a ∈ statement, a.kind ≠ .semicolon) ∧
      ∀ a ∈ rest, a.kind = .semicolon := by
  induction hn : s.length using Nat.strong_induction_on generalizing s with
  | _ n ih =>
    cases s with
    | nil => exact ⟨[], [], rfl, List.forall_mem_nil _, List.forall_mem_nil _⟩
    | cons c s =>
      rw [List.length_cons] at hn
      by_cases hc : c = semicolon
      · obtain rfl := hc
        have hrest := restTokens_trailing (h [] s rfl List.not_mem_nil)
        refine ⟨[], _, restTokens_semicolon s, List.forall_mem_nil _, ?_⟩
        exact List.forall_mem_cons.mpr ⟨rfl, hrest⟩
      · obtain ⟨⟨k, m⟩, hturn⟩ : ∃ r, lexTurn none (c :: s) = r := ⟨_, rfl⟩
        obtain ⟨hk, hshut⟩ := lexTurn_shut hc hturn
        have hpos := tokenizer.pos none c s
        have hle := tokenizer.le none (c :: s)
        rw [show tokenizer.step none (c :: s) = (k, m) from hturn] at hpos hle
        have htoken : ∀ a ∈ (token? ⟨k, (c :: s).take m⟩).toList, a.kind ≠ .semicolon := by
          intro a ha
          exact token?_semicolon hk (Option.mem_toList.mp ha)
        have hlength : ((c :: s).take m).length = m := List.length_take_of_le hle
        have hdrop : ((c :: s).drop m).length < n := by
          rw [List.length_drop, List.length_cons]
          dsimp only at hpos
          omega
        rw [restTokens_cons hturn]
        rw [← List.take_append_drop m (c :: s)] at h
        have hsplit := List.take_append_drop m (c :: s)
        generalize (c :: s).take m = u at *
        generalize (c :: s).drop m = v at *
        by_cases hmem : semicolon ∈ u
        · obtain ⟨a, w, rfl, ha⟩ := List.eq_append_cons_of_mem hmem
          have htrail : Trailing (w ++ v) := h a (w ++ v) (by simp) ha
          rw [← hsplit, ← hlength] at hshut
          have hv := (hshut.resolve_left (not_not_intro hmem)).trailing htrail
          exact ⟨_, _, rfl, htoken, restTokens_trailing hv⟩
        · obtain ⟨statement, rest, heq, hstatement, hrest⟩ := ih _ hdrop (h.of_append hmem) rfl
          refine ⟨_ ++ statement, rest, ?_, List.forall_mem_append.mpr ⟨htoken, hstatement⟩, hrest⟩
          rw [heq, List.append_assoc]

end Tokens

section Scan

variable {first : Token} {statement rest ts : List Token} {sql : List Byte}

theorem flagsLoop_semicolons (hrest : ∀ a ∈ rest, a.kind = .semicolon) (fuel : ℕ) (r : Report) :
    flagsLoop fuel rest r = r := by
  induction fuel generalizing rest with
  | zero => rfl
  | succ fuel ih =>
    cases rest with
    | nil => rfl
    | cons a rest =>
      obtain ⟨ha, hrest⟩ := List.forall_mem_cons.mp hrest
      rw [flagsLoop, if_pos ha]
      exact ih hrest

/-- What is skipped from within a statement with no semicolon goes on past it. -/
theorem skipStatement_statement (hstatement : ∀ a ∈ statement, a.kind ≠ .semicolon)
    (hts : NoEof (statement ++ rest)) (depth : ℕ) :
    skipStatement depth (statement ++ rest) <:+ rest := by
  induction statement generalizing depth with
  | nil => exact skipStatement_suffix depth rest
  | cons a statement ih =>
    obtain ⟨ha, hstatement⟩ := List.forall_mem_cons.mp hstatement
    obtain ⟨heof, hts⟩ := List.forall_mem_cons.mp hts
    rw [List.cons_append, skipStatement]
    cases hkind : a.kind with
    | eof => exact absurd hkind heof
    | semicolon => exact absurd hkind ha
    | _ => exact ih hstatement hts _

theorem skipStatement_of_suffix (hstatement : ∀ a ∈ statement, a.kind ≠ .semicolon)
    (hts : NoEof (statement ++ rest)) (h : ts <:+ statement ++ rest) (depth : ℕ) :
    skipStatement depth ts <:+ rest := by
  obtain ⟨before, heq⟩ := h
  rcases List.append_eq_append_iff.mp heq with ⟨a, rfl, rfl⟩ | ⟨a, -, rfl⟩
  · obtain ⟨-, hstatement⟩ := List.forall_mem_append.mp hstatement
    rw [List.append_assoc] at hts
    exact skipStatement_statement hstatement hts.append.2 depth
  · exact (skipStatement_suffix depth ts).trans (List.suffix_append a ts)

theorem statementTurn_statement (hstatement : ∀ a ∈ statement, a.kind ≠ .semicolon)
    (hts : NoEof (statement ++ rest)) : (statementTurn first (statement ++ rest)).rest <:+ rest := by
  unfold statementTurn
  dsimp only
  split
  · exact skipStatement_statement hstatement hts _
  · split
    · exact skipStatement_of_suffix hstatement hts (scanExplain_suffix _) _
    · exact skipStatement_statement hstatement hts _

theorem statementTurn_effect (first : Token) (ts : List Token) : (statementTurn first ts).effect =
    if first.effect ≠ .none then first.effect
    else if first.isExplain then
      if (scanExplain ts).2.1 then (scanExplain ts).1.effect else .none
    else .none := by
  unfold statementTurn
  split
  · rfl
  · split
    · rfl
    · rfl

theorem statementTurn_multiple (first : Token) (ts : List Token) :
    (statementTurn first ts).flags.multiple = false := by
  unfold statementTurn
  split_ifs <;> rfl

/-- A text the fast path takes is for the full scan no statement, or one with the effect the
fast path finds. -/
theorem transactionFlags_single (h : mayHaveMultipleStatements sql = false)
    (effects : List Effect) :
    let report := transactionFlags sql effects
    report.count ≤ 1 ∧ report.flags.multiple = false ∧
      (report.count = 0 → report.effects = effects ∧ firstTransactionEffect sql = .none) ∧
      (report.count = 1 → report.effects = effects.set 0 (firstTransactionEffect sql)) := by
  obtain ⟨statement, rest, heq, hstatement, hrest⟩ := restTokens_single (single_of_not_multiple h)
  have htokens : tokens sql = statement ++ rest := heq
  have heof := tokens_kind_ne_eof sql
  unfold transactionFlags firstTransactionEffect
  rw [htokens] at heof ⊢
  cases statement with
  | nil =>
    have hnone : rest.dropWhile (·.kind == .semicolon) = [] := by
      rw [List.dropWhile_eq_nil_iff]
      exact fun a ha ↦ beq_iff_eq.mpr (hrest a ha)
    rw [List.nil_append, flagsLoop_semicolons hrest, hnone]
    refine ⟨Nat.zero_le _, rfl, fun _ ↦ ⟨rfl, by decide⟩, fun hcount ↦ ?_⟩
    cases hcount
  | cons first statement =>
    obtain ⟨hfirst, hstatement⟩ := List.forall_mem_cons.mp hstatement
    obtain ⟨-, heof⟩ := List.forall_mem_cons.mp heof
    have hsuffix : (statementTurn first (statement ++ rest)).rest <:+ rest :=
      statementTurn_statement hstatement heof
    have hturn : ∀ a ∈ (statementTurn first (statement ++ rest)).rest, a.kind = .semicolon :=
      fun a ha ↦ hrest a (hsuffix.mem ha)
    have hdrop : (first :: (statement ++ rest)).dropWhile (·.kind == .semicolon) =
        first :: (statement ++ rest) :=
      List.dropWhile_cons_of_neg (by simpa using hfirst)
    rw [List.cons_append, List.length_cons, flagsLoop, if_neg hfirst, flagsLoop_semicolons hturn,
      hdrop, nextToken_cons]
    dsimp only
    rw [← statementTurn_effect]
    refine ⟨Nat.le_refl _, ?_, fun hcount ↦ ?_, fun _ ↦ ?_⟩
    · simp [Report.add, Flags.union, statementTurn_multiple]
    · cases hcount
    · cases effects <;> rfl

theorem transactionFlags_single_explain :
    (transactionFlags (ascii "EXPLAIN (ANALYZE) END;") [.none]).effects =
      [firstTransactionEffect (ascii "EXPLAIN (ANALYZE) END;")] :=
  (transactionFlags_single (by decide) [.none]).2.2.2 (by decide)

end Scan

end PdoDuckdb.Transaction
