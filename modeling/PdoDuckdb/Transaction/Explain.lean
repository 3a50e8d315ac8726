import PdoDuckdb.Transaction.Classification

namespace PdoDuckdb.Transaction

open Library.Nesting

variable {t first : Token} {ts s tail between : List Token}

theorem Token.mark_eq_separator : t.mark = .separator ↔ t.kind = .semicolon := by
  unfold Token.mark
  cases t.kind <;> simp

theorem Token.effect_eq_none (h : t.kind ≠ .word) : t.effect = .none := by
  simp [Token.effect, Token.isKeyword, h]

theorem Token.isExplain_kind (h : t.isExplain) : t.kind = .word := by
  simp only [Token.isExplain, Token.isKeyword, Bool.false_and, Bool.or_false, Bool.and_eq_true,
    beq_iff_eq] at h
  exact h.1

theorem Token.isAnalyze_kind {allowQuoted : Bool} (h : t.isAnalyze allowQuoted) :
    t.kind = .word ∨ t.kind = .quotedWord := by
  simp only [Token.isAnalyze, Token.isKeyword, Bool.or_eq_true, Bool.and_eq_true, beq_iff_eq] at h
  tauto

def Cut (tail : List Token) : Prop := ∀ t ∈ tail.head?, t.kind = .semicolon

def NoEof (ts : List Token) : Prop := ∀ t ∈ ts, t.kind ≠ .eof

theorem initialDepth_eq (t : Token) : initialDepth t = nest Token.mark 0 t := by
  unfold initialDepth nest Token.mark
  cases t.kind <;> simp

theorem skipStatement_eq (h : NoEof ts) (d : ℕ) : skipStatement d ts = skip Token.mark d ts := by
  induction ts generalizing d with
  | nil => rfl
  | cons t ts ih =>
    obtain ⟨ht, hts⟩ := List.forall_mem_cons.mp h
    simp only [skipStatement, skip, nest, Token.mark_eq_separator, ← ih hts]
    unfold Token.mark
    cases hk : t.kind with
    | eof => exact absurd hk ht
    | rightParen => cases d <;> simp
    | _ => simp

section OptionList

theorem optionList_append (hcut : Cut tail) (d : ℕ) :
    optionList d (s ++ tail) = (optionList d s).map fun r ↦ (r.1, r.2 ++ tail) := by
  induction s generalizing d with
  | nil =>
    cases tail with
    | nil => rfl
    | cons t tail =>
      have ht : t.mark = .separator := Token.mark_eq_separator.mpr (hcut t rfl)
      simp [optionList, ht]
  | cons t s ih =>
    simp only [List.cons_append, optionList, ih]
    split
    · rfl
    · split_ifs
      · rfl
      · simp [Function.comp_def]
    · simp [Function.comp_def]

theorem optionList_eq_some {d : ℕ} {r : List Token × List Token} (h : optionList d s = some r) :
    ∃ close, s = r.1 ++ close :: r.2 ∧ close.kind = .rightParen ∧
      depth Token.mark (d + 1) (r.1 ++ [close]) = 0 := by
  induction s generalizing d r with
  | nil => cases h
  | cons t s ih =>
    simp only [optionList] at h
    split at h
    · cases h
    · rename_i hmark
      have hkind : t.kind = .rightParen := by
        revert hmark
        unfold Token.mark
        cases t.kind <;> simp
      split_ifs at h with hd
      · cases h
        exact ⟨t, rfl, hkind, by simp [nest, hmark, hd]⟩
      · obtain ⟨r', hr', rfl⟩ := Option.map_eq_some_iff.mp h
        obtain ⟨close, hs, hclose, hdepth⟩ := ih hr'
        refine ⟨close, by rw [hs]; rfl, hclose, ?_⟩
        have hd' : nest Token.mark (d + 1) t = d - 1 + 1 := by
          simp only [nest, hmark]
          omega
        simpa only [List.cons_append, depth_cons, hd'] using hdepth
    · rename_i hsep hright
      obtain ⟨r', hr', rfl⟩ := Option.map_eq_some_iff.mp h
      obtain ⟨close, hs, hclose, hdepth⟩ := ih hr'
      refine ⟨close, by rw [hs]; rfl, hclose, ?_⟩
      have hd' : nest Token.mark (d + 1) t = nest Token.mark d t + 1 := by
        unfold nest
        cases h : t.mark <;> simp_all
      simpa only [List.cons_append, depth_cons, hd'] using hdepth

/-- `namesAnalyze` in the middle of a list: inside `depth` parentheses, and with
the first word of the current option still to come or not. -/
def namesFrom (optionStart : Bool) (depth : ℕ) (options : List Token) : Bool :=
  let pieces := (topLevel depth options).splitOnP (·.kind == .comma)
  (if optionStart then pieces else pieces.tail).any fun option ↦
    option.head?.any (·.isAnalyze true)

theorem namesFrom_nil (optionStart : Bool) (d : ℕ) : namesFrom optionStart d [] = false := by
  cases optionStart <;> rfl

theorem namesFrom_skip {options : List Token} {d : ℕ} (h : ¬(d = 0 ∧ t.mark = .plain))
    (optionStart : Bool) :
    namesFrom optionStart d (t :: options) =
      namesFrom optionStart (nest Token.mark d t) options := by
  simp only [namesFrom, topLevel, if_neg h]

theorem namesFrom_comma {options : List Token} (h : t.kind = .comma) (optionStart : Bool) :
    namesFrom optionStart 0 (t :: options) = namesFrom true 0 options := by
  have hmark : t.mark = .plain := by simp [Token.mark, h]
  cases optionStart <;> simp [namesFrom, topLevel, hmark, List.splitOnP_cons_eq_if_modifyHead, h]

theorem namesFrom_word {options : List Token} (hmark : t.mark = .plain) (h : t.kind ≠ .comma)
    (optionStart : Bool) :
    namesFrom optionStart 0 (t :: options) =
      ((optionStart && t.isAnalyze true) || namesFrom false 0 options) := by
  have hcomma : (t.kind == .comma) = false := by simp [h]
  obtain ⟨piece, pieces, hp⟩ := List.exists_cons_of_ne_nil
    (List.splitOnP_ne_nil (fun t : Token ↦ t.kind == .comma) (topLevel 0 options))
  cases optionStart <;>
    simp [namesFrom, topLevel, hmark, List.splitOnP_cons_eq_if_modifyHead, hcomma, hp]

theorem scanOptions_closed (hs : NoEof s) {d : ℕ} {r : List Token × List Token}
    (hr : optionList d s = some r) (optionStart analyze : Bool) (tail : List Token) :
    scanOptions (d + 1) optionStart analyze (s ++ tail) =
      ((nextToken (r.2 ++ tail)).1, analyze || namesFrom optionStart d r.1,
        (nextToken (r.2 ++ tail)).2) := by
  induction s generalizing d optionStart analyze r with
  | nil => cases hr
  | cons t s ih =>
    obtain ⟨heof, hs⟩ := List.forall_mem_cons.mp hs
    simp only [optionList] at hr
    unfold Token.mark at hr
    simp only [List.cons_append, scanOptions]
    cases hk : t.kind with
    | eof => exact absurd hk heof
    | semicolon => simp [hk] at hr
    | leftParen =>
      simp only [hk, nest, Option.map_eq_some_iff] at hr
      obtain ⟨r', hr', rfl⟩ := hr
      have hd : ¬(d = 0 ∧ t.mark = .plain) := by simp [Token.mark, hk]
      have hnest : nest Token.mark d t = d + 1 := by simp [nest, Token.mark, hk]
      simp only [ih hs hr', namesFrom_skip hd, hnest]
    | rightParen =>
      simp only [hk] at hr
      by_cases hd : d = 0
      · simp only [hd, if_true, Option.some.injEq] at hr
        simp [hd, ← hr, namesFrom_nil]
      · simp only [if_neg hd, Option.map_eq_some_iff] at hr
        obtain ⟨r', hr', rfl⟩ := hr
        have hd' : ¬(d = 0 ∧ t.mark = .plain) := by omega
        have hnest : nest Token.mark d t = d - 1 := by simp [nest, Token.mark, hk]
        have hpred : d + 1 - 1 = d - 1 + 1 := by omega
        simp only [Nat.add_eq_right, hd, if_false, hpred, ih hs hr', namesFrom_skip hd', hnest]
    | _ =>
      simp only [hk, nest, Option.map_eq_some_iff] at hr
      obtain ⟨r', hr', rfl⟩ := hr
      have hmark : t.mark = .plain := by simp [Token.mark, hk]
      have hnest : nest Token.mark d t = d := by simp [nest, hmark]
      by_cases hd : d = 0
      · subst hd
        cases optionStart <;>
          simp [hk, ih hs hr', namesFrom_comma, namesFrom_word hmark, Bool.or_assoc]
      · have hd' : ¬(d = 0 ∧ t.mark = .plain) := fun h ↦ hd h.1
        simp [hd, ih hs hr', namesFrom_skip hd', hnest]

theorem scanOptions_open (hs : NoEof s) (hsemi : ∀ t ∈ s, t.kind ≠ .semicolon)
    (htail : NoEof tail) (hcut : Cut tail) {d : ℕ} (hr : optionList d s = none)
    (optionStart analyze : Bool) :
    ∃ seen, scanOptions (d + 1) optionStart analyze (s ++ tail) =
      ((nextToken tail).1, seen, (nextToken tail).2) := by
  induction s generalizing d optionStart analyze with
  | nil =>
    cases tail with
    | nil => exact ⟨analyze, rfl⟩
    | cons t tail =>
      have ht : t.kind = .semicolon := hcut t rfl
      exact ⟨analyze, by simp [scanOptions, ht, nextToken]⟩
  | cons t s ih =>
    obtain ⟨heof, hs⟩ := List.forall_mem_cons.mp hs
    obtain ⟨ht, hsemi⟩ := List.forall_mem_cons.mp hsemi
    simp only [optionList] at hr
    unfold Token.mark at hr
    simp only [List.cons_append, scanOptions]
    cases hk : t.kind with
    | eof => exact absurd hk heof
    | semicolon => exact absurd hk ht
    | leftParen =>
      simp only [hk, nest, Option.map_eq_none_iff] at hr
      exact ih hs hsemi hr optionStart analyze
    | rightParen =>
      simp only [hk] at hr
      split_ifs at hr with hd
      have hpred : d + 1 - 1 = d - 1 + 1 := by omega
      simp only [Nat.add_eq_right, hd, if_false, hpred]
      exact ih hs hsemi (Option.map_eq_none_iff.mp hr) optionStart analyze
    | _ =>
      simp only [hk, nest, Option.map_eq_none_iff] at hr
      dsimp only
      split_ifs
      all_goals exact ih hs hsemi hr _ _

end OptionList

section Explain

theorem Cut.nextToken_kind (hcut : Cut tail) :
    (nextToken tail).1.kind = .eof ∨ (nextToken tail).1.kind = .semicolon := by
  cases tail with
  | nil => exact .inl rfl
  | cons t tail => exact .inr (hcut t rfl)

theorem Cut.nextToken_effect (hcut : Cut tail) : (nextToken tail).1.effect = .none := by
  apply Token.effect_eq_none
  rcases hcut.nextToken_kind with h | h <;> simp [h]

theorem scanExplain_body (hs : NoEof s) (hsemi : ∀ t ∈ s, t.kind ≠ .semicolon)
    (htail : NoEof tail) (hcut : Cut tail) (analyze : Bool) :
    let r := nextToken (s ++ tail)
    let e := explainedBody analyze s
    ∃ seen, (if r.1.kind = .leftParen then scanOptions 1 true analyze r.2 else (r.1, analyze, r.2)) =
      ((nextToken (e.2 ++ tail)).1, seen, (nextToken (e.2 ++ tail)).2) ∧ (e.2 ≠ [] → seen = e.1) := by
  cases s with
  | nil =>
    refine ⟨analyze, ?_, fun h ↦ absurd rfl h⟩
    rw [if_neg]
    · rfl
    · rcases hcut.nextToken_kind with h | h <;> simp [h]
  | cons t s =>
    obtain ⟨-, hs⟩ := List.forall_mem_cons.mp hs
    obtain ⟨-, hsemi⟩ := List.forall_mem_cons.mp hsemi
    have hleft : t.mark = .left ↔ t.kind = .leftParen := by
      unfold Token.mark
      cases t.kind <;> simp
    simp only [List.cons_append, nextToken_cons, explainedBody, hleft]
    by_cases hk : t.kind = .leftParen
    · simp only [hk, if_true]
      cases hr : optionList 0 s with
      | some r =>
        exact ⟨analyze || namesAnalyze r.1, scanOptions_closed hs hr true analyze tail, fun _ ↦ rfl⟩
      | none =>
        obtain ⟨seen, hseen⟩ := scanOptions_open hs hsemi htail hcut hr true analyze
        exact ⟨seen, hseen, fun h ↦ absurd rfl h⟩
    · simp only [hk, if_false]
      exact ⟨analyze, rfl, fun _ ↦ rfl⟩

theorem Cut.head?_isAnalyze (hcut : Cut tail) (s : List Token) :
    ((s ++ tail).head?.any fun t ↦ t.isAnalyze false) = s.head?.any fun t ↦ t.isAnalyze false := by
  cases s with
  | cons t s => rfl
  | nil =>
    cases tail with
    | nil => rfl
    | cons t tail =>
      have ht : t.kind = .semicolon := hcut t rfl
      simp [Token.isAnalyze, Token.isKeyword, ht]

/-- What the look-through of an EXPLAIN hands back, before the first semicolon `between`. -/
theorem scanExplain_eq (hs : NoEof between) (hsemi : ∀ t ∈ between, t.kind ≠ .semicolon)
    (htail : NoEof tail) (hcut : Cut tail) :
    let e := explained between
    ∃ seen, scanExplain (between ++ tail) =
      ((nextToken (e.2 ++ tail)).1, seen, (nextToken (e.2 ++ tail)).2) ∧ (e.2 ≠ [] → seen = e.1) := by
  have hhead : (nextToken (between ++ tail)).1.isAnalyze false =
      between.head?.any fun t ↦ t.isAnalyze false := by
    rw [← hcut.head?_isAnalyze]
    cases between ++ tail <;> rfl
  simp only [scanExplain, explained, hhead]
  cases between with
  | nil => exact scanExplain_body hs hsemi htail hcut false
  | cons t s =>
    by_cases h : t.isAnalyze false
    · simpa only [List.head?_cons, Option.any_some, h, if_true, List.cons_append, nextToken_cons,
        List.tail_cons] using scanExplain_body (List.forall_mem_cons.mp hs).2 (List.forall_mem_cons.mp hsemi).2
          htail hcut true
    · simpa only [List.head?_cons, Option.any_some, h, Bool.false_eq_true, if_false] using
        scanExplain_body hs hsemi htail hcut false

theorem explainedBody_append (hcut : Cut tail) (analyze : Bool) (s : List Token) :
    (explainedBody analyze (s ++ tail)).1 = (explainedBody analyze s).1 ∧
    ((explainedBody analyze (s ++ tail)).2 = (explainedBody analyze s).2 ++ tail ∨
      (explainedBody analyze (s ++ tail)).2 = [] ∧ (explainedBody analyze s).2 = []) := by
  cases s with
  | nil =>
    cases tail with
    | nil => simp
    | cons t tail =>
      have ht : t.mark = .separator := Token.mark_eq_separator.mpr (hcut t rfl)
      simp [explainedBody, ht]
  | cons t s =>
    simp only [List.cons_append, explainedBody, optionList_append hcut]
    split_ifs
    · cases optionList 0 s <;> simp
    · simp

theorem explainedEffect_append (hcut : Cut tail) (s : List Token) :
    explainedEffect (s ++ tail) = explainedEffect s := by
  have hnone : (tail.head?.map Token.effect).getD .none = .none := by
    have h := hcut.nextToken_effect
    cases tail <;> simp_all [nextToken]
  have hbody : ∃ analyze s', explained s = explainedBody analyze s' ∧
      explained (s ++ tail) = explainedBody analyze (s' ++ tail) := by
    simp only [explained, hcut.head?_isAnalyze]
    cases s with
    | nil => exact ⟨false, [], rfl, rfl⟩
    | cons t s =>
      by_cases h : t.isAnalyze false
      · exact ⟨true, s, by simp [h], by simp [h]⟩
      · exact ⟨false, t :: s, by simp [h], by simp [h]⟩
  obtain ⟨analyze, s', hs, ht⟩ := hbody
  obtain ⟨h₁, h₂⟩ := explainedBody_append hcut analyze s'
  simp only [explainedEffect, hs, ht, h₁]
  rcases h₂ with h₂ | ⟨h₂, h₃⟩
  · rw [h₂]
    cases (explainedBody analyze s').2 with
    | nil => simp [hnone]
    | cons t ts => rfl
  · rw [h₂, h₃]

/-- The effect the look-through finds is the one of the statement it looks at. -/
theorem scanExplain_effect (hs : NoEof between) (hsemi : ∀ t ∈ between, t.kind ≠ .semicolon)
    (htail : NoEof tail) (hcut : Cut tail) :
    (if (scanExplain (between ++ tail)).2.1 then (scanExplain (between ++ tail)).1.effect
      else .none) = explainedEffect between := by
  obtain ⟨seen, heq, hseen⟩ := scanExplain_eq hs hsemi htail hcut
  simp only [heq, explainedEffect]
  cases he : (explained between).2 with
  | nil => simp [hcut.nextToken_effect]
  | cons t ts => simp [hseen (by simp [he]), nextToken]

theorem explainedBody_suffix (analyze : Bool) (s : List Token) :
    (explainedBody analyze s).2 = [] ∨
      ∃ before, s = before ++ (explainedBody analyze s).2 ∧ depth Token.mark 0 before = 0 := by
  cases s with
  | nil => exact .inl rfl
  | cons t s =>
    simp only [explainedBody]
    split_ifs with hleft
    · cases hr : optionList 0 s with
      | none => exact .inl rfl
      | some r =>
        obtain ⟨close, hs, -, hdepth⟩ := optionList_eq_some hr
        refine .inr ⟨t :: (r.1 ++ [close]), ?_, ?_⟩
        · rw [hs]
          simp
        · have hnest : nest Token.mark 0 t = 1 := by simp [nest, hleft]
          rw [depth_cons, hnest]
          exact hdepth
    · exact .inr ⟨[], rfl, rfl⟩

/-- The explained statement is what follows a text whose parentheses close. -/
theorem explained_suffix (s : List Token) :
    (explained s).2 = [] ∨
      ∃ before, s = before ++ (explained s).2 ∧ depth Token.mark 0 before = 0 := by
  simp only [explained]
  cases s with
  | nil => exact .inl rfl
  | cons t s =>
    by_cases h : t.isAnalyze false
    · simp only [List.head?_cons, Option.any_some, h, if_true, List.tail_cons]
      refine (explainedBody_suffix true s).imp_right ?_
      rintro ⟨before, hs, hdepth⟩
      refine ⟨t :: before, by rw [List.cons_append, ← hs], ?_⟩
      have hnest : nest Token.mark 0 t = 0 := by
        rcases Token.isAnalyze_kind h with hk | hk <;> simp [nest, Token.mark, hk]
      rw [depth_cons, hnest, hdepth]
    · simpa only [List.head?_cons, Option.any_some, h, Bool.false_eq_true, if_false] using
        explainedBody_suffix false (t :: s)

end Explain

end PdoDuckdb.Transaction
