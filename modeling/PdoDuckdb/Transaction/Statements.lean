import PdoDuckdb.Transaction.Explain

namespace PdoDuckdb.Transaction

open Library.Nesting

variable {first : Token} {ts s tail between : List Token}

theorem exists_cut (ts : List Token) :
    ∃ between tail, ts = between ++ tail ∧ (∀ t ∈ between, t.kind ≠ .semicolon) ∧ Cut tail := by
  refine ⟨ts.takeWhile (·.kind ≠ .semicolon), ts.dropWhile (·.kind ≠ .semicolon),
    List.takeWhile_append_dropWhile.symm, ?_, ?_⟩
  · intro t ht
    simpa using List.mem_takeWhile_imp ht
  · intro t ht
    have h := List.head?_dropWhile_not (fun t : Token ↦ decide (t.kind ≠ .semicolon)) ts
    rw [ht] at h
    simpa using h

theorem NoEof.append (h : NoEof (s ++ tail)) : NoEof s ∧ NoEof tail :=
  List.forall_mem_append.mp h

theorem not_separator (hsemi : ∀ t ∈ between, t.kind ≠ .semicolon) :
    ∀ t ∈ between, t.mark ≠ .separator :=
  fun t ht h ↦ hsemi t ht (Token.mark_eq_separator.mp h)

theorem nest_explain (h : first.isExplain) : nest Token.mark 0 first = 0 := by
  simp [nest, Token.mark, Token.isExplain_kind h]

theorem statementTurn_plain (h : first.effect ≠ .none ∨ ¬first.isExplain) (hts : NoEof ts) :
    (statementTurn first ts).rest = skip Token.mark (nest Token.mark 0 first) ts := by
  rw [← skipStatement_eq hts, ← initialDepth_eq]
  unfold statementTurn
  by_cases heffect : first.effect = .none
  · have hexplain : ¬first.isExplain := h.resolve_left (not_not_intro heffect)
    simp [heffect, hexplain]
  · simp [heffect]

theorem statementTurn_explain (heffect : first.effect = .none) (hexplain : first.isExplain)
    (ts : List Token) : statementTurn first ts =
      let effect := if (scanExplain ts).2.1 then (scanExplain ts).1.effect else .none
      ⟨effect, { explainAnalyze := effect ≠ .none },
        skipStatement (initialDepth (scanExplain ts).1) (scanExplain ts).2.2⟩ := by
  simp only [statementTurn, heffect, hexplain, ne_eq, not_true_eq_false, if_false, if_true]

/-- One turn reports the statement it starts at as that statement alone calls for. -/
theorem statementTurn_classify (hts : NoEof ts) :
    ((statementTurn first ts).effect, (statementTurn first ts).flags) =
      classify (first :: upTo Token.mark (nest Token.mark 0 first) ts) := by
  by_cases heffect : first.effect = .none
  · by_cases hexplain : first.isExplain
    · obtain ⟨between, tail, rfl, hsemi, hcut⟩ := exists_cut ts
      obtain ⟨hbetween, htail⟩ := hts.append
      have hcut' : Cut (upTo Token.mark (depth Token.mark 0 between) tail) := by
        cases tail with
        | nil => exact hcut
        | cons t tail =>
          simp only [upTo]
          split_ifs
          · simp [Cut]
          · exact hcut
      simp only [statementTurn_explain heffect hexplain,
        scanExplain_effect hbetween hsemi htail hcut, nest_explain hexplain,
        upTo_append_of_no_separator (not_separator hsemi), classify, heffect, hexplain, ne_eq,
        not_true_eq_false, if_false, if_true, explainedEffect_append hcut']
    · simp [statementTurn, classify, heffect, hexplain]
  · simp [statementTurn, classify, heffect]

/-- An EXPLAIN with a body leaves what follows its statement. -/
theorem statementTurn_body (heffect : first.effect = .none) (hexplain : first.isExplain)
    (hbetween : NoEof between) (hsemi : ∀ t ∈ between, t.kind ≠ .semicolon)
    (htail : NoEof tail) (hcut : Cut tail) (hbody : (explained between).2 ≠ [] ∨ tail = []) :
    (statementTurn first (between ++ tail)).rest = skip Token.mark 0 (between ++ tail) := by
  obtain ⟨seen, heq, -⟩ := scanExplain_eq hbetween hsemi htail hcut
  simp only [statementTurn_explain heffect hexplain, heq]
  cases he : (explained between).2 with
  | nil =>
    obtain rfl : tail = [] := hbody.resolve_left (by simp [he])
    rw [skip_append_of_no_separator (not_separator hsemi)]
    rfl
  | cons body rest =>
    obtain h | ⟨before, hs, hdepth⟩ := explained_suffix between
    · simp [h] at he
    · rw [he] at hs
      have hrest : NoEof (rest ++ tail) := by
        intro t ht
        rcases List.mem_append.mp ht with ht | ht
        · exact hbetween t (by rw [hs]; simp [ht])
        · exact htail t ht
      have hbefore : ∀ t ∈ before, t.mark ≠ .separator :=
        fun t ht ↦ not_separator hsemi t (by rw [hs]; simp [ht])
      have hbody : body.mark ≠ .separator :=
        not_separator hsemi body (by rw [hs]; simp)
      rw [hs, List.append_assoc, skip_append_of_no_separator hbefore, hdepth]
      simp only [List.cons_append, nextToken_cons, skip, hbody, false_and, if_false,
        skipStatement_eq hrest, initialDepth_eq]

/-- An EXPLAIN without one leaves what follows the statement after its semicolon. -/
theorem statementTurn_no_body {semi : Token} {rest : List Token} (heffect : first.effect = .none)
    (hexplain : first.isExplain) (hbetween : NoEof between)
    (hsemi : ∀ t ∈ between, t.kind ≠ .semicolon) (hrest : NoEof rest)
    (hk : semi.kind = .semicolon) (hbody : (explained between).2 = []) :
    (statementTurn first (between ++ semi :: rest)).rest = skip Token.mark 0 rest := by
  have htail : NoEof (semi :: rest) := List.forall_mem_cons.mpr ⟨by simp [hk], hrest⟩
  have hcut : Cut (semi :: rest) := by simp [Cut, hk]
  obtain ⟨seen, heq, -⟩ := scanExplain_eq hbetween hsemi htail hcut
  rw [hbody] at heq
  simp only [statementTurn_explain heffect hexplain, heq, List.nil_append, nextToken_cons,
    skipStatement_eq hrest]
  simp [initialDepth, hk]

theorem skip_no_body {semi : Token} {rest : List Token}
    (hsemi : ∀ t ∈ between, t.kind ≠ .semicolon) (hk : semi.kind = .semicolon) :
    skip Token.mark 0 (between ++ semi :: rest) =
      if depth Token.mark 0 between = 0 then rest
      else skip Token.mark (depth Token.mark 0 between) rest := by
  have hmark := Token.mark_eq_separator.mpr hk
  simp only [skip_append_of_no_separator (not_separator hsemi), skip, hmark, true_and,
    nest_separator hmark]

/-- After a statement that swallows none, the loop is where the next statement starts. -/
theorem starts_turn_eq (hts : NoEof ts) (h : ¬Swallows (first :: ts)) :
    starts Token.mark true 0 (statementTurn first ts).rest =
      starts Token.mark true 0 (skip Token.mark (nest Token.mark 0 first) ts) := by
  by_cases hplain : first.effect ≠ .none ∨ ¬first.isExplain
  · rw [statementTurn_plain hplain hts]
  · obtain ⟨heffect, hexplain⟩ : first.effect = .none ∧ first.isExplain := by tauto
    obtain ⟨between, tail, rfl, hsemi, hcut⟩ := exists_cut ts
    obtain ⟨hbetween, htail⟩ := hts.append
    rw [nest_explain hexplain]
    by_cases hbody : (explained between).2 ≠ [] ∨ tail = []
    · rw [statementTurn_body heffect hexplain hbetween hsemi htail hcut hbody]
    · obtain ⟨hempty, htail'⟩ : (explained between).2 = [] ∧ tail ≠ [] := by tauto
      obtain ⟨semi, rest, rfl⟩ := List.exists_cons_of_ne_nil htail'
      have hk : semi.kind = .semicolon := hcut semi rfl
      obtain ⟨-, hrest⟩ := List.forall_mem_cons.mp htail
      rw [statementTurn_no_body heffect hexplain hbetween hsemi hrest hk hempty,
        skip_no_body hsemi hk]
      split_ifs with hdepth
      · cases rest with
        | nil => rfl
        | cons t rest =>
          have ht : t.mark = .separator := by
            rw [Token.mark_eq_separator]
            by_contra ht
            exact h ⟨first, between, semi, t :: rest, rfl, heffect, hexplain, hk, hsemi, hempty,
              .inl ⟨hdepth, t, rest, rfl, ht⟩⟩
          simp [skip, ht, starts_separator ht]
      · refine starts_skip_eq (Nat.zero_le _) ?_
        intro before semi' after hs hsemi' hzero hpos t ht
        rw [Token.mark_eq_separator] at hsemi' ⊢
        by_contra hkt
        exact h ⟨first, between, semi, rest, rfl, heffect, hexplain, hk, hsemi, hempty,
          .inr ⟨before, semi', after, hs, hsemi', hzero, hpos, t, ht, hkt⟩⟩

/-- After one that does, it is not. -/
theorem starts_turn_ne (hts : NoEof ts) (h : Swallows (first :: ts)) :
    (starts Token.mark true 0 (statementTurn first ts).rest).head? ≠
      (starts Token.mark true 0 (skip Token.mark (nest Token.mark 0 first) ts)).head? := by
  obtain ⟨_, between, semi, rest, hu, heffect, hexplain, hk, hsemi, hbody, hcase⟩ := h
  obtain ⟨rfl, rfl⟩ := List.cons.inj hu
  obtain ⟨hbetween, htail⟩ := hts.append
  obtain ⟨-, hrest⟩ := List.forall_mem_cons.mp htail
  rw [nest_explain hexplain,
    statementTurn_no_body heffect hexplain hbetween hsemi hrest hk hbody, skip_no_body hsemi hk]
  obtain ⟨hdepth, t, ts, rfl, ht⟩ | ⟨before, semi', after, hs, hsemi', hzero, hpos, t, ht, hkt⟩ :=
    hcase
  · have hmark : t.mark ≠ .separator := fun h ↦ ht (Token.mark_eq_separator.mp h)
    rw [if_pos hdepth, starts_cons hmark]
    intro heq
    have hlen := length_le_of_mem_starts (List.mem_of_mem_head? heq)
    have hle := @skip_length_le _ Token.mark (nest Token.mark 0 t) ts
    simp only [skip, hmark, false_and, if_false, List.length_cons] at hlen
    omega
  · have hdepth : depth Token.mark 0 between ≠ 0 := by
      intro h
      rw [h, hzero] at hpos
      exact absurd hpos (Nat.lt_irrefl 0)
    obtain ⟨u, us, hstarts, hlt⟩ := starts_skip_longer (Nat.zero_le _) hs
      (Token.mark_eq_separator.mpr hsemi') hzero hpos
      ⟨t, ht, fun h ↦ hkt (Token.mark_eq_separator.mp h)⟩
    rw [if_neg hdepth, hstarts]
    intro heq
    have hlen := length_le_of_mem_starts (List.mem_of_mem_head? heq.symm)
    omega

theorem nextToken_suffix (ts : List Token) : (nextToken ts).2 <:+ ts := by
  cases ts with
  | nil => exact List.suffix_rfl
  | cons t ts => exact List.suffix_cons t ts

theorem scanOptions_suffix (ts : List Token) (depth : ℕ) (optionStart analyze : Bool) :
    (scanOptions depth optionStart analyze ts).2.2 <:+ ts := by
  induction ts generalizing depth optionStart analyze with
  | nil => exact List.suffix_rfl
  | cons t ts ih =>
    have htail {rest : List Token} (h : rest <:+ ts) : rest <:+ t :: ts :=
      h.trans (List.suffix_cons t ts)
    simp only [scanOptions]
    cases t.kind with
    | eof | semicolon => exact List.suffix_cons t ts
    | leftParen => exact htail (ih _ _ _)
    | rightParen =>
      dsimp only
      split_ifs
      · exact htail (nextToken_suffix ts)
      · exact htail (ih _ _ _)
    | word | quotedWord | comma | other =>
      dsimp only
      split_ifs
      all_goals exact htail (ih _ _ _)

theorem scanExplain_suffix (ts : List Token) : (scanExplain ts).2.2 <:+ ts := by
  have hbody (r : Token × List Token) (analyze : Bool) :
      (if r.1.kind = .leftParen then scanOptions 1 true analyze r.2
        else (r.1, analyze, r.2)).2.2 <:+ r.2 := by
    split_ifs
    · exact scanOptions_suffix _ _ _ _
    · exact List.suffix_rfl
  have hr : (if (nextToken ts).1.isAnalyze false then nextToken (nextToken ts).2
      else nextToken ts).2 <:+ ts := by
    split_ifs
    · exact (nextToken_suffix _).trans (nextToken_suffix ts)
    · exact nextToken_suffix ts
  exact (hbody _ _).trans hr

theorem skipStatement_suffix (d : ℕ) (ts : List Token) : skipStatement d ts <:+ ts := by
  induction ts generalizing d with
  | nil => exact List.suffix_rfl
  | cons t ts ih =>
    have hcons := List.suffix_cons t ts
    simp only [skipStatement]
    cases t.kind with
    | eof => exact hcons
    | semicolon =>
      dsimp only
      split_ifs
      · exact hcons
      · exact (ih _).trans hcons
    | _ => exact (ih _).trans hcons

theorem statementTurn_suffix (first : Token) (ts : List Token) :
    (statementTurn first ts).rest <:+ ts := by
  unfold statementTurn
  dsimp only
  split
  · exact skipStatement_suffix _ _
  · split
    · exact (skipStatement_suffix _ _).trans (scanExplain_suffix ts)
    · exact skipStatement_suffix _ _

theorem countedLoop_head {fuel : ℕ} (hfuel : ts.length ≤ fuel) :
    (countedLoop fuel ts).head? = (starts Token.mark true 0 ts).head? := by
  induction ts generalizing fuel with
  | nil => cases fuel <;> rfl
  | cons t ts ih =>
    cases fuel with
    | zero => cases hfuel
    | succ fuel =>
      by_cases ht : t.kind = .semicolon
      · rw [starts_separator (Token.mark_eq_separator.mpr ht)]
        simpa only [countedLoop, if_pos ht] using ih (Nat.le_of_succ_le_succ hfuel)
      · have hmark : t.mark ≠ .separator := fun h ↦ ht (Token.mark_eq_separator.mp h)
        simp only [countedLoop, if_neg ht, starts_cons hmark, List.head?_cons]

/-- The loop is at every statement once when no statement swallows another, and
only then. -/
theorem countedLoop_eq_iff {fuel : ℕ} (hfuel : ts.length ≤ fuel) (hts : NoEof ts) :
    countedLoop fuel ts = starts Token.mark true 0 ts ↔
      ∀ u ∈ starts Token.mark true 0 ts, ¬Swallows u := by
  induction fuel generalizing ts with
  | zero =>
    obtain rfl := List.eq_nil_of_length_eq_zero (Nat.le_zero.mp hfuel)
    simp [countedLoop, starts]
  | succ fuel ih =>
    cases ts with
    | nil => simp [countedLoop, starts]
    | cons t ts =>
      obtain ⟨-, hrest⟩ := List.forall_mem_cons.mp hts
      have hle := Nat.le_of_succ_le_succ hfuel
      by_cases ht : t.kind = .semicolon
      · rw [starts_separator (Token.mark_eq_separator.mpr ht)]
        simpa only [countedLoop, if_pos ht] using ih hle hrest
      · have hmark : t.mark ≠ .separator := fun h ↦ ht (Token.mark_eq_separator.mp h)
        have hsuffix := statementTurn_suffix t ts
        have hturn : NoEof (statementTurn t ts).rest := fun a ha ↦ hrest a (hsuffix.mem ha)
        have hlength := hsuffix.length_le.trans hle
        simp only [countedLoop, if_neg ht, starts_cons hmark, List.cons.injEq, true_and,
          List.forall_mem_cons]
        by_cases hswallows : Swallows (t :: ts)
        · refine iff_of_false ?_ fun h ↦ h.1 hswallows
          intro heq
          apply starts_turn_ne hrest hswallows
          rw [← countedLoop_head hlength, heq]
        · rw [← starts_turn_eq hrest hswallows, ih hlength hturn]
          simp [hswallows]

/-- The report adds up what is said of each statement the loop is at. -/
theorem flagsLoop_eq (fuel : ℕ) (hts : NoEof ts) (r : Report) :
    flagsLoop fuel ts r = ((countedLoop fuel ts).map (upTo Token.mark 0)).foldl
      (fun r s ↦ r.add (classify s).1 (classify s).2) r := by
  induction fuel generalizing ts r with
  | zero => rfl
  | succ fuel ih =>
    cases ts with
    | nil => rfl
    | cons t ts =>
      obtain ⟨-, hrest⟩ := List.forall_mem_cons.mp hts
      by_cases ht : t.kind = .semicolon
      · simpa only [flagsLoop, countedLoop, if_pos ht] using ih hrest r
      · have hmark : t.mark ≠ .separator := fun h ↦ ht (Token.mark_eq_separator.mp h)
        have hturn : NoEof (statementTurn t ts).rest :=
          fun a ha ↦ hrest a ((statementTurn_suffix t ts).mem ha)
        simp only [flagsLoop, countedLoop, if_neg ht, List.map_cons, List.foldl_cons, upTo, hmark,
          false_and, if_false, ← statementTurn_classify hrest, ih hturn]

theorem expectedReport_eq (sql : List Byte) (effects : List Effect) :
    expectedReport sql effects =
      ((starts Token.mark true 0 (tokens sql)).map (upTo Token.mark 0)).foldl
        (fun r s ↦ r.add (classify s).1 (classify s).2) ⟨{}, 0, effects⟩ := by
  rw [map_upTo_starts]
  rfl

/-- The tracker reports a text as its statements call for exactly when none of them
swallows another. -/
theorem faithful_iff (sql : List Byte) (effects : List Effect) :
    Faithful sql effects ↔
      ∀ u ∈ starts Token.mark true 0 (tokens sql), ¬Swallows u := by
  have hts := tokens_kind_ne_eof sql
  rw [← countedLoop_eq_iff (Nat.le_refl _) hts]
  refine ⟨And.right, fun h ↦ ⟨?_, h⟩⟩
  rw [expectedReport_eq, ← h]
  exact flagsLoop_eq _ hts _

theorem not_faithful_explain_begin :
    ¬Faithful (ascii "EXPLAIN;BEGIN") [.none, .none] := by
  rintro ⟨h, -⟩
  exact absurd h (by decide)

end PdoDuckdb.Transaction
