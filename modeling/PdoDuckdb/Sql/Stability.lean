import PdoDuckdb.Sql.Pieces

namespace PdoDuckdb.Sql

open Byte

variable {t r r' : List Byte} {d : ℕ} {c : Byte}

def isLineEnd (c : Byte) : Bool := c == carriageReturn || c == newline

def EndsLines (r r' : List Byte) : Prop := r.head?.any isLineEnd → r'.head? = r.head?

section Bytes

variable {p : Byte → Bool}

theorem length_takeWhile_append :
    ((t ++ r).takeWhile p).length = t.length ↔ (∀ c ∈ t, p c) ∧ ¬r.head?.any p := by
  induction t with
  | nil =>
    cases r with
    | nil => simp
    | cons c r => by_cases hc : p c <;> simp [hc]
  | cons c t ih =>
    by_cases hc : p c
    · simpa [hc] using ih
    · simp [hc]

theorem quotedLength_append {mark : Byte} {escapes : Bool} (hr : r ≠ []) :
    quotedLength mark escapes (t ++ r) = t.length →
      r.head? ≠ some mark ∧ ∀ r', r'.head? ≠ some mark →
        quotedLength mark escapes (t ++ r') = t.length := by
  fun_induction quotedLength mark escapes t with
  | case1 =>
    intro h
    exact absurd h (quotedLength_pos mark escapes hr).ne'
  | case2 c =>
    obtain ⟨a, r, rfl⟩ := List.exists_cons_of_ne_nil hr
    intro h
    simp only [List.singleton_append, quotedLength, List.length_singleton] at h
    have hpos := quotedLength_pos mark escapes (List.cons_ne_nil a r)
    split_ifs at h with hescape hmark hdouble
    · omega
    · omega
    · refine ⟨by simpa using hdouble, fun r' hr' ↦ ?_⟩
      cases r' with
      | nil => rfl
      | cons b r' =>
        have hb : ¬(b == mark) = true := by simpa using hr'
        simp [quotedLength, hescape, hmark, hb]
    · omega
  | case3 c d t hescape ih =>
    intro h
    simp only [List.cons_append, quotedLength, if_pos hescape, List.length_cons] at h ⊢
    obtain ⟨hhead, hstable⟩ := ih (by omega)
    exact ⟨hhead, fun r' hr' ↦ by rw [hstable r' hr']⟩
  | case4 c d t hescape hmark hdouble ih =>
    intro h
    simp only [List.cons_append, quotedLength, if_neg hescape, if_pos hmark, if_pos hdouble,
      List.length_cons] at h ⊢
    obtain ⟨hhead, hstable⟩ := ih (by omega)
    exact ⟨hhead, fun r' hr' ↦ by rw [hstable r' hr']⟩
  | case5 c d t hescape hmark hdouble =>
    intro h
    simp only [List.cons_append, quotedLength, if_neg hescape, if_pos hmark, if_neg hdouble,
      List.length_cons] at h
    omega
  | case6 c d t hescape hmark ih =>
    intro h
    simp only [List.cons_append, quotedLength, if_neg hescape, if_neg hmark,
      List.length_cons] at h ih ⊢
    obtain ⟨hhead, hstable⟩ := ih (by omega)
    exact ⟨hhead, fun r' hr' ↦ by rw [hstable r' hr']⟩

theorem blockCommentLength_pos (hr : r ≠ []) : 0 < blockCommentLength (d + 1) r := by
  obtain ⟨a, r, rfl⟩ := List.exists_cons_of_ne_nil hr
  cases r with
  | nil => simp [blockCommentLength]
  | cons b r =>
    simp only [blockCommentLength]
    split_ifs <;> omega

theorem blockCommentLength_append (hr : r ≠ []) :
    blockCommentLength d (t ++ r) = t.length → ∀ r', blockCommentLength d (t ++ r') = t.length := by
  fun_induction blockCommentLength d t with
  | case1 t =>
    intro h r'
    simpa [blockCommentLength] using h
  | case2 d =>
    intro h
    exact absurd h (blockCommentLength_pos hr).ne'
  | case3 d c =>
    obtain ⟨a, r, rfl⟩ := List.exists_cons_of_ne_nil hr
    intro h
    simp only [List.singleton_append, blockCommentLength, List.length_singleton] at h
    split_ifs at h with hopen hclose
    · omega
    · omega
    · have := blockCommentLength_pos (d := d) (List.cons_ne_nil a r)
      omega
  | case4 d a b t hopen ih =>
    intro h r'
    simp only [List.cons_append, blockCommentLength, if_pos hopen, List.length_cons] at h ⊢
    rw [ih (by omega)]
  | case5 d a b t hopen hclose ih =>
    intro h r'
    simp only [List.cons_append, blockCommentLength, if_neg hopen, if_pos hclose,
      List.length_cons] at h ⊢
    rw [ih (by omega)]
  | case6 d a b t hopen hclose ih =>
    intro h r'
    simp only [List.cons_append, blockCommentLength, if_neg hopen, if_neg hclose,
      List.length_cons] at h ih ⊢
    rw [ih (by omega)]

theorem lineCommentLength_append (hr : r ≠ []) (hr' : EndsLines r r')
    (h : lineCommentLength (t ++ r) = t.length) : lineCommentLength (t ++ r') = t.length := by
  obtain ⟨a, r, rfl⟩ := List.exists_cons_of_ne_nil hr
  obtain ⟨ht, hhead⟩ := length_takeWhile_append.mp h
  refine length_takeWhile_append.mpr ⟨ht, ?_⟩
  have ha : isLineEnd a := by simpa [isLineEnd, or_iff_not_imp_left] using hhead
  rw [hr' (by simpa using ha)]
  exact hhead

theorem delimitedLength_append {delimiter : List Byte} (hd : delimiter ≠ []) (hr : r ≠ []) :
    delimitedLength delimiter (t ++ r) = t.length →
      delimiter.length ≤ t.length ∧ ∀ r', delimitedLength delimiter (t ++ r') = t.length := by
  induction t with
  | nil =>
    obtain ⟨a, r, rfl⟩ := List.exists_cons_of_ne_nil hr
    intro h
    simp only [List.nil_append, delimitedLength, List.length_nil] at h
    split_ifs at h
    exact absurd (List.length_eq_zero_iff.mp h) hd
  | cons c t ih =>
    have hkeep {s s' : List Byte} (hlen : delimiter.length ≤ (c :: t).length)
        (h : delimiter <+: c :: (t ++ s)) : delimiter <+: c :: (t ++ s') :=
      (List.prefix_of_prefix_length_le h (List.prefix_append (c :: t) s) hlen).trans
        (List.prefix_append (c :: t) s')
    intro h
    simp only [List.cons_append, delimitedLength, List.isPrefixOf_iff_prefix] at h ⊢
    split_ifs at h with hprefix
    · exact ⟨h.le, fun r' ↦ by rw [if_pos (hkeep h.le hprefix), h]⟩
    · obtain ⟨hlen, hstable⟩ := ih (by simpa using h)
      have hlen' : delimiter.length ≤ (c :: t).length := Nat.le_succ_of_le hlen
      refine ⟨hlen', fun r' ↦ ?_⟩
      rw [if_neg fun h ↦ hprefix (hkeep hlen' h), hstable r', List.length_cons]

theorem numberLength_append {afterDigit : Bool} (h : numberLength afterDigit (t ++ r) = t.length) :
    (t ≠ [] → numberLength true r = 0) ∧ ∀ r', (t = [] → numberLength afterDigit r' = 0) →
      numberLength true r' = 0 → numberLength afterDigit (t ++ r') = t.length := by
  induction t generalizing afterDigit with
  | nil => exact ⟨fun h ↦ absurd rfl h, fun r' hr' _ ↦ hr' rfl⟩
  | cons c t ih =>
    simp only [List.cons_append, numberLength, List.length_cons] at h ⊢
    split_ifs at h with hdigit hunderscore
    · have h : numberLength true (t ++ r) = t.length := by omega
      obtain ⟨hhead, hstable⟩ := ih h
      refine ⟨fun _ ↦ ?_, fun r' _ hr' ↦ by rw [if_pos hdigit, hstable r' (fun _ ↦ hr') hr']⟩
      cases t with
      | nil => simpa using h
      | cons _ _ => exact hhead (List.cons_ne_nil _ _)
    · cases t with
      | nil =>
        simp only [List.nil_append, List.length_nil] at h hunderscore
        cases r with
        | nil => simp at hunderscore
        | cons a r =>
          have ha : isDigit a := by simp_all
          simp [numberLength, ha] at h
      | cons a t =>
        have h : numberLength false (a :: t ++ r) = (a :: t).length := by omega
        obtain ⟨hhead, hstable⟩ := ih h
        refine ⟨fun _ ↦ hhead (List.cons_ne_nil _ _), fun r' _ hr' ↦ ?_⟩
        rw [if_neg hdigit, if_pos (by simpa using hunderscore),
          hstable r' (fun h ↦ absurd h (List.cons_ne_nil _ _)) hr']

end Bytes

section Trivia

theorem spaceLength_of_not_high (h : ¬isHigh c) (s : List Byte) : spaceLength (c :: s) = 0 := by
  unfold spaceLength
  grind [isHigh]

theorem spaceLength_append (hr : ¬r.head?.any isHigh) (c : Byte) (t : List Byte) :
    spaceLength (c :: t ++ r) = spaceLength (c :: t) := by
  match t, r with
  | _ :: _ :: _, _ => rfl
  | _, [] => rw [List.append_nil]
  | [b], a :: r =>
    have ha : ¬isHigh a := by simpa using hr
    simp only [spaceLength, List.cons_append, List.nil_append]
    grind [isHigh]
  | [], [a] =>
    have ha : ¬isHigh a := by simpa using hr
    simp only [spaceLength, List.cons_append, List.nil_append]
    grind [isHigh]
  | [], a :: b :: r =>
    have ha : ¬isHigh a := by simpa using hr
    simp only [spaceLength, List.cons_append, List.nil_append]
    grind [isHigh]

theorem spaceLength_stable {t : List Byte} (h : spaceLength (t ++ r) = t.length) (ht : t ≠ [])
    (r' : List Byte) : spaceLength (t ++ r') = t.length := by
  match t with
  | [] => exact absurd rfl ht
  | [a] =>
    simp only [List.singleton_append, List.length_singleton] at h
    unfold spaceLength at h
    grind
  | [a, b] =>
    simp only [List.cons_append, List.nil_append, List.length_cons, List.length_nil] at h ⊢
    cases r' <;> cases r <;> simp only [spaceLength] at h ⊢ <;> grind
  | a :: b :: c :: t =>
    simp only [List.cons_append, spaceLength] at h ⊢
    exact h

theorem triviaStep_eq_none {s : List Byte} : triviaStep (c :: s) = none ↔
    spaceLength (c :: s) = 0 ∧ isBlank c = false ∧ ¬(c = minus ∧ s.head? = some minus) ∧
      ¬(c = slash ∧ s.head? = some star) := by
  simp only [triviaStep]
  split_ifs <;> simp_all

theorem triviaStep_blank (h : isBlank c) (s : List Byte) :
    triviaStep (c :: s) = some (.blank, 1) := by
  have hhigh : ¬isHigh c := by
    revert h
    unfold isBlank isHigh
    grind
  simp [triviaStep, spaceLength_of_not_high hhigh, h]

theorem triviaStep_line (s : List Byte) :
    triviaStep (minus :: minus :: s) = some (.comment, lineCommentLength s + 2) := by
  have hspace := spaceLength_of_not_high (c := minus) (by decide) (minus :: s)
  have hblank : isBlank minus = false := by decide
  simp [triviaStep, hspace, hblank]

theorem triviaStep_block (s : List Byte) :
    triviaStep (slash :: star :: s) = some (.comment, blockCommentLength 1 s + 2) := by
  have hspace := spaceLength_of_not_high (c := slash) (by decide) (star :: s)
  have hblank : isBlank slash = false := by decide
  have hminus : slash ≠ minus := by decide
  simp [triviaStep, hspace, hblank, hminus]

theorem triviaStep_cases {s : List Byte} {k : Trivia} {n : ℕ}
    (h : triviaStep s = some (k, n)) :
    (k = .blank ∧ spaceLength s = n ∧ n ≠ 0) ∨
    (k = .blank ∧ n = 1 ∧ s.head?.any isBlank) ∨
    (∃ u, s = minus :: minus :: u ∧ k = .comment ∧ n = lineCommentLength u + 2) ∨
    ∃ u, s = slash :: star :: u ∧ k = .comment ∧ n = blockCommentLength 1 u + 2 := by
  unfold triviaStep at h
  split at h
  · cases h
  · next c s =>
    split_ifs at h with hspace hblank hline hblock
    · cases h
      exact .inl ⟨rfl, rfl, hspace⟩
    · cases h
      exact .inr (.inl ⟨rfl, rfl, hblank⟩)
    · cases h
      obtain ⟨rfl, hhead⟩ := hline
      obtain ⟨u, rfl⟩ := List.head?_eq_some_iff.mp hhead
      exact .inr (.inr (.inl ⟨u, rfl, rfl, rfl⟩))
    · cases h
      obtain ⟨rfl, hhead⟩ := hblock
      obtain ⟨u, rfl⟩ := List.head?_eq_some_iff.mp hhead
      exact .inr (.inr (.inr ⟨u, rfl, rfl, rfl⟩))

theorem exists_cons_cons {a b : Byte} {u : List Byte} (h : t ++ r = a :: b :: u)
    (ht : 2 ≤ t.length) : ∃ t', t = a :: b :: t' ∧ u = t' ++ r := by
  match t with
  | [] => simp at ht
  | [_] => simp at ht
  | _ :: _ :: t' =>
    simp only [List.cons_append, List.cons.injEq] at h
    obtain ⟨rfl, rfl, rfl⟩ := h
    exact ⟨t', rfl, rfl⟩

/-- A blank or comment stays one when what follows it changes. -/
theorem triviaStep_stable {k : Trivia} (hr : r ≠ []) (hlines : EndsLines r r')
    (h : triviaStep (t ++ r) = some (k, t.length)) : triviaStep (t ++ r') = some (k, t.length) := by
  have hpos := triviaStep_pos h
  have ht : t ≠ [] := List.length_pos_iff.mp hpos
  obtain ⟨rfl, hlen, -⟩ | ⟨rfl, hone, hblank⟩ | ⟨u, hu, rfl, hlen⟩ | ⟨u, hu, rfl, hlen⟩ :=
    triviaStep_cases h
  · obtain ⟨c, t, rfl⟩ := List.exists_cons_of_ne_nil ht
    have hstable := spaceLength_stable hlen ht r'
    simp only [List.cons_append] at hstable ⊢
    simp [triviaStep, hstable]
  · obtain ⟨c, rfl⟩ := List.length_eq_one_iff.mp hone
    exact triviaStep_blank (by simpa using hblank) r'
  · obtain ⟨t, rfl, rfl⟩ := exists_cons_cons hu (by omega)
    have hline := lineCommentLength_append (t := t) hr hlines (by simpa using hlen.symm)
    simp only [List.cons_append, triviaStep_line, hline, List.length_cons]
  · obtain ⟨t, rfl, rfl⟩ := exists_cons_cons hu (by omega)
    have hblock := blockCommentLength_append (t := t) hr (by simpa using hlen.symm) r'
    simp only [List.cons_append, triviaStep_block, hblock, List.length_cons]

theorem endsLines_of_triviaStep (h : triviaStep r = none) : EndsLines r r' := by
  intro hend
  cases r with
  | nil => cases hend
  | cons c r =>
    have hblank := (triviaStep_eq_none.mp h).2.1
    have hend : isLineEnd c := by simpa using hend
    revert hblank hend
    unfold isBlank isLineEnd
    grind

theorem EndsLines.append (h : EndsLines r r') (t : List Byte) : EndsLines (t ++ r) (t ++ r') := by
  cases t with
  | nil => exact h
  | cons c t => exact fun _ ↦ rfl

theorem skipTriviaLoop_stable (hr : r ≠ []) (hr' : triviaStep r' = none) {fuel fuel' : ℕ}
    (hfuel : (t ++ r).length ≤ fuel) (hfuel' : (t ++ r').length ≤ fuel')
    (h : skipTriviaLoop fuel (t ++ r) = t.length) :
    triviaStep r = none ∧ skipTriviaLoop fuel' (t ++ r') = t.length := by
  induction fuel generalizing t fuel' with
  | zero =>
    have hlen := List.length_pos_of_ne_nil hr
    simp only [List.length_append] at hfuel
    omega
  | succ fuel ih =>
    simp only [skipTriviaLoop] at h
    cases hstep : triviaStep (t ++ r) with
    | none =>
      rw [hstep] at h
      obtain rfl := List.length_eq_zero_iff.mp h.symm
      refine ⟨hstep, ?_⟩
      cases fuel' with
      | zero => rfl
      | succ fuel' => simp [skipTriviaLoop, hr']
    | some step =>
      obtain ⟨k, n⟩ := step
      rw [hstep] at h
      dsimp only at h
      have hn : n ≤ t.length := by omega
      have hpos := triviaStep_pos hstep
      obtain ⟨x, t, rfl, rfl⟩ : ∃ x t', t = x ++ t' ∧ x.length = n :=
        ⟨t.take n, t.drop n, (List.take_append_drop n t).symm, List.length_take_of_le hn⟩
      simp only [List.append_assoc, List.drop_left, List.length_append] at *
      obtain ⟨fuel', rfl⟩ : ∃ m, fuel' = m + 1 := ⟨fuel' - 1, by omega⟩
      have hfuel₁ : t.length + r.length ≤ fuel := by omega
      have hfuel₂ : t.length + r'.length ≤ fuel' := by omega
      obtain ⟨hnone, hrest⟩ := ih hfuel₁ hfuel₂ (by omega)
      have hne : t ++ r ≠ [] := by simp [hr]
      have hlines : EndsLines (t ++ r) (t ++ r') := (endsLines_of_triviaStep hnone).append t
      have hstable := triviaStep_stable hne hlines hstep
      refine ⟨hnone, ?_⟩
      simp only [skipTriviaLoop, hstable, List.drop_left, hrest]
      omega

theorem skipTrivia_stable (hr : r ≠ []) (hr' : triviaStep r' = none)
    (h : skipTrivia (t ++ r) = t.length) :
    triviaStep r = none ∧ skipTrivia (t ++ r') = t.length :=
  skipTriviaLoop_stable hr hr' (Nat.le_refl _) (Nat.le_refl _) h

/-- A text that may follow the `$` of a parameter with nothing in between. -/
def StartsName (r : List Byte) : Prop := r.head?.any isHigh ∨ triviaStep r = none

theorem nameLead_eq_zero (h : StartsName r) : nameLead r = 0 := by
  unfold nameLead
  split_ifs with hhigh
  · rfl
  · have hnone := h.resolve_left hhigh
    unfold skipTrivia
    cases r <;> simp [skipTriviaLoop, hnone]

theorem nameLead_stable (hr : r ≠ []) (h : nameLead (t ++ r) = t.length) :
    (t = [] → StartsName r) ∧ (t ≠ [] → triviaStep r = none) ∧
      ∀ r', (t = [] → StartsName r') → (t ≠ [] → triviaStep r' = none) →
        nameLead (t ++ r') = t.length := by
  have hnone : triviaStep [] = none := rfl
  cases t with
  | nil =>
    refine ⟨fun _ ↦ ?_, fun h ↦ absurd rfl h, fun r' hr' _ ↦ nameLead_eq_zero (hr' rfl)⟩
    by_cases hhigh : r.head?.any isHigh
    · exact .inl hhigh
    · rw [nameLead, List.nil_append, if_neg hhigh] at h
      exact .inr (skipTrivia_stable (t := []) hr hnone h).1
  | cons c t =>
    have hhigh : ¬(c :: t ++ r).head?.any isHigh := by
      intro hhigh
      rw [nameLead, if_pos hhigh] at h
      cases h
    rw [nameLead, if_neg hhigh] at h
    refine ⟨fun h ↦ absurd h (List.cons_ne_nil c t),
      fun _ ↦ (skipTrivia_stable hr hnone h).1, fun r' _ hr' ↦ ?_⟩
    have hhigh' : ¬(c :: t ++ r').head?.any isHigh := hhigh
    rw [nameLead, if_neg hhigh']
    exact (skipTrivia_stable hr (hr' (List.cons_ne_nil c t)) h).2

end Trivia

section Parameter

variable {v2 : Bool} {k : Piece} {body : List Byte}

def NameEnd (v2 : Bool) (k : Piece) (r : List Byte) : Prop :=
  match k with
  | .native true _ _ _ => numberLength true r = 0
  | .native false _ _ none => ¬r.head?.any nameChar
  | .native false _ _ (some mark) | .dollar (some mark) => r.head? ≠ some mark
  | .dollar none =>
    triviaStep r = none ∧ ¬r.head?.any nameChar ∧ ¬r.head?.any (identifierQuote v2)
  | _ => True

/-- A byte that starts a name starts no trivia, unless it is a high one. -/
theorem nameStart_class : ∀ c : Byte, isDigit c ∨ identifierQuote true c ∨ nameChar c →
    isBlank c = false ∧ c ≠ minus ∧ c ≠ slash := forall_byte (by decide)

theorem identifierQuote_true (h : identifierQuote v2 c) : identifierQuote true c := by
  cases v2
  · simp_all [identifierQuote]
  · exact h

theorem name_stable (hc : isDigit c ∨ identifierQuote v2 c ∨ nameChar c)
    (hhigh : isHigh c → ¬r.head?.any isHigh ∧ ¬r'.head?.any isHigh) :
    StartsName (c :: t ++ r') ∧
      (triviaStep (c :: t ++ r) = none → triviaStep (c :: t ++ r') = none) := by
  obtain ⟨hblank, hminus, hslash⟩ :=
    nameStart_class c (hc.imp_right (Or.imp_left identifierQuote_true))
  have hnone (s : List Byte) (hs : spaceLength (c :: s) = 0) : triviaStep (c :: s) = none :=
    triviaStep_eq_none.mpr ⟨hs, hblank, by simp [hminus], by simp [hslash]⟩
  by_cases h : isHigh c
  · obtain ⟨hr, hr'⟩ := hhigh h
    refine ⟨.inl (by simpa using h), fun hstep ↦ hnone (t ++ r') ?_⟩
    have hspace : spaceLength (c :: t ++ r) = 0 := (triviaStep_eq_none.mp hstep).1
    rw [spaceLength_append hr] at hspace
    exact (spaceLength_append hr' c t).trans hspace
  · have hstep := hnone (t ++ r') (spaceLength_of_not_high h (t ++ r'))
    exact ⟨.inr hstep, fun _ ↦ hstep⟩

theorem head_of_nameLead {s : List Byte} (h : nameLead s ≠ 0) :
    ∀ b ∈ s.head?, ¬identifierStart b ∧ b ≠ dollar := by
  have hclass : ∀ b : Byte, ¬isHigh b → isBlank b ∨ b = minus ∨ b = slash →
      ¬identifierStart b ∧ b ≠ dollar := forall_byte (by decide)
  intro b hb
  obtain ⟨u, rfl⟩ := List.head?_eq_some_iff.mp hb
  have hhigh : ¬isHigh b := by
    intro hhigh
    rw [nameLead, if_pos (by simpa using hhigh)] at h
    exact h rfl
  apply hclass b hhigh
  rw [nameLead, if_neg (by simpa using hhigh), skipTrivia, List.length_cons, skipTriviaLoop] at h
  cases hstep : triviaStep (b :: u) with
  | none => simp [hstep] at h
  | some step =>
    obtain ⟨-, hlen, hne⟩ | ⟨-, -, hblank⟩ | ⟨v, hv, -⟩ | ⟨v, hv, -⟩ := triviaStep_cases hstep
    · exact absurd (hlen.symm.trans (spaceLength_of_not_high hhigh u)) hne
    · exact .inl (by simpa using hblank)
    · exact .inr (.inl (List.cons.inj hv).1)
    · exact .inr (.inr (List.cons.inj hv).1)

/-- The three ways a parameter turn can go, with the name `name` behind the trivia `lead`. -/
theorem parameterTurn_cons (lead : ℕ) (name : List Byte) (s : List Byte)
    (hlead : nameLead s = lead) (hname : s.drop lead = c :: name) :
    (isDigit c ∧ parameterTurn v2 s =
      (.native true (lead + 1) (numberLength false (c :: name)) none,
        lead + numberLength false (c :: name) + 1)) ∨
    (¬isDigit c ∧ identifierQuote v2 c ∧ parameterTurn v2 s =
      let reach := skipString c false (c :: name)
      let length := if ((c :: name).take reach).getLast? = some c then reach - 2 else reach - 1
      (if length = 0 then .dollar (some c) else .native false (lead + 2) length (some c),
        lead + reach + 1)) ∨
    (¬isDigit c ∧ ¬identifierQuote v2 c ∧ parameterTurn v2 s =
      let length := ((c :: name).takeWhile nameChar).length
      (if length = 0 then .dollar none else .native false (lead + 1) length none,
        lead + length + 1)) := by
  subst hlead
  by_cases hdigit : isDigit c
  · exact .inl ⟨hdigit, by simp [parameterTurn, hname, hdigit]⟩
  · by_cases hquote : identifierQuote v2 c
    · exact .inr (.inl ⟨hdigit, hquote, by simp [parameterTurn, hname, hdigit, hquote]⟩)
    · exact .inr (.inr ⟨hdigit, hquote, by simp [parameterTurn, hname, hdigit, hquote]⟩)

variable {x name : List Byte}

/-- Behind the same trivia the name starts at the same place. -/
theorem nameLead_name (hlead : nameLead (x ++ (c :: name ++ r)) = x.length)
    (hc : isDigit c ∨ identifierQuote v2 c ∨ nameChar c)
    (hhigh : isHigh c → ¬r.head?.any isHigh ∧ ¬r'.head?.any isHigh) :
    nameLead (x ++ (c :: name ++ r')) = x.length := by
  obtain ⟨-, hnone, hstable⟩ := nameLead_stable (List.cons_ne_nil c (name ++ r)) hlead
  obtain ⟨hstart, hkeep⟩ := name_stable (t := name) hc hhigh
  exact hstable _ (fun _ ↦ hstart) fun hx ↦ hkeep (hnone hx)

theorem parameterTurn_numeric (hlead : nameLead (x ++ (name ++ r)) = x.length)
    (hdigit : (name ++ r).head?.any isDigit)
    (hlen : numberLength false (name ++ r) = name.length) :
    name.head?.any isDigit ∧ numberLength true r = 0 ∧ ∀ r', numberLength true r' = 0 →
      parameterTurn v2 (x ++ (name ++ r')) =
        (.native true (x.length + 1) name.length none, x.length + name.length + 1) := by
  cases name with
  | nil =>
    cases r with
    | nil => cases hdigit
    | cons a r =>
      have ha : isDigit a := by simpa using hdigit
      simp [numberLength, ha] at hlen
  | cons c name =>
    have hc : isDigit c := by simpa using hdigit
    obtain ⟨hend, hstable⟩ := numberLength_append hlen
    refine ⟨hdigit, hend (List.cons_ne_nil c name), fun r' hr' ↦ ?_⟩
    have hhigh : isHigh c → ¬r.head?.any isHigh ∧ ¬r'.head?.any isHigh := by
      revert hc
      unfold isDigit isHigh
      grind
    have hlead' := @nameLead_name _ _ c v2 x _ hlead (.inl hc) hhigh
    have hlen' := hstable r' (fun h ↦ absurd h (List.cons_ne_nil c name)) hr'
    obtain ⟨-, heq⟩ | ⟨hdigit', -⟩ | ⟨hdigit', -⟩ :=
      @parameterTurn_cons c v2 x.length (name ++ r') _ hlead' (by rw [List.drop_left]; rfl)
    · rw [heq, ← List.cons_append, hlen']
    · exact absurd hc hdigit'
    · exact absurd hc hdigit'

theorem parameterTurn_quoted (hlead : nameLead (x ++ (c :: name ++ r)) = x.length)
    (hdigit : ¬isDigit c) (hmark : identifierQuote v2 c) (hr : r ≠ [])
    (hlen : quotedLength c false (name ++ r) = name.length) :
    r.head? ≠ some c ∧ ∀ r', r'.head? ≠ some c →
      parameterTurn v2 (x ++ (c :: name ++ r')) =
        parameterTurn v2 (x ++ (c :: name ++ r)) := by
  obtain ⟨hend, hstable⟩ := quotedLength_append hr hlen
  refine ⟨hend, fun r' hr' ↦ ?_⟩
  have hhigh : isHigh c → ¬r.head?.any isHigh ∧ ¬r'.head?.any isHigh := by
    have hclass : ∀ c : Byte, identifierQuote true c → ¬isHigh c := forall_byte (by decide)
    exact fun h ↦ absurd h (hclass c (identifierQuote_true hmark))
  have hlead' := nameLead_name hlead (.inr (.inl hmark)) hhigh
  have hturn (s : List Byte) (hlead : nameLead (x ++ (c :: name ++ s)) = x.length)
      (hlen : quotedLength c false (name ++ s) = name.length) :
      parameterTurn v2 (x ++ (c :: name ++ s)) =
        let length := if (c :: name).getLast? = some c then name.length + 1 - 2
          else name.length + 1 - 1
        (if length = 0 then .dollar (some c) else .native false (x.length + 2) length (some c),
          x.length + (name.length + 1) + 1) := by
    have hreach : skipString c false (c :: (name ++ s)) = (c :: name).length := by
      simp [skipString, hlen]
    obtain ⟨hdigit', -⟩ | ⟨-, -, heq⟩ | ⟨-, hmark', -⟩ :=
      @parameterTurn_cons c v2 x.length (name ++ s) _ hlead (by rw [List.drop_left]; rfl)
    · exact absurd hdigit' hdigit
    · rw [heq, hreach, ← List.cons_append]
      dsimp only
      rw [List.take_left]
      rfl
    · exact absurd hmark hmark'
  rw [hturn r hlead hlen, hturn r' hlead' (hstable r' hr')]

theorem nameChar_of_digit : ∀ c : Byte, isDigit c ∨ isHigh c → nameChar c :=
  forall_byte (by decide)

theorem parameterTurn_unquoted (hlead : nameLead (x ++ (name ++ r)) = x.length) (hr : r ≠ [])
    (hclass : ∀ c ∈ (name ++ r).head?, ¬isDigit c ∧ ¬identifierQuote v2 c)
    (hlen : ((name ++ r).takeWhile nameChar).length = name.length) :
    (∀ c ∈ name, nameChar c) ∧ ¬r.head?.any nameChar ∧
    (name = [] → triviaStep r = none ∧ ¬r.head?.any (identifierQuote v2)) ∧
    ∀ r', r' ≠ [] → ¬r'.head?.any nameChar →
      (name = [] → triviaStep r' = none ∧ ¬r'.head?.any (identifierQuote v2)) →
      parameterTurn v2 (x ++ (name ++ r')) =
        (if name.length = 0 then .dollar none else .native false (x.length + 1) name.length none,
          x.length + name.length + 1) := by
  obtain ⟨hname, hend⟩ := length_takeWhile_append.mp hlen
  have hturn (r' : List Byte) (hr' : r' ≠ []) (hend' : ¬r'.head?.any nameChar)
      (hlead' : nameLead (x ++ (name ++ r')) = x.length)
      (hclass' : ∀ c ∈ (name ++ r').head?, ¬isDigit c ∧ ¬identifierQuote v2 c) :
      parameterTurn v2 (x ++ (name ++ r')) =
        (if name.length = 0 then .dollar none else .native false (x.length + 1) name.length none,
          x.length + name.length + 1) := by
    have hlen' := length_takeWhile_append.mpr ⟨hname, hend'⟩
    obtain ⟨c, rest, hrest⟩ := List.exists_cons_of_ne_nil (List.append_ne_nil_of_right_ne_nil name hr')
    rw [hrest] at hlead' hclass' hlen' ⊢
    obtain ⟨hdigit, hmark⟩ := hclass' c rfl
    obtain ⟨hdigit', -⟩ | ⟨-, hmark', -⟩ | ⟨-, -, heq⟩ :=
      @parameterTurn_cons c v2 x.length rest _ hlead' List.drop_left
    · exact absurd hdigit' hdigit
    · exact absurd hmark' hmark
    · rw [heq, hlen']
  refine ⟨hname, hend, ?_, ?_⟩
  · rintro rfl
    obtain ⟨c, r, rfl⟩ := List.exists_cons_of_ne_nil hr
    have hchar : ¬nameChar c := by simpa using hend
    obtain ⟨hnil, hcons, -⟩ := nameLead_stable hr hlead
    refine ⟨?_, by simpa using (hclass c rfl).2⟩
    by_cases hx : x = []
    · refine (hnil hx).resolve_left fun hhigh ↦ hchar (nameChar_of_digit c (.inr ?_))
      simpa using hhigh
    · exact hcons hx
  · intro r' hr' hend' hempty
    cases name with
    | nil =>
      obtain ⟨c, r', rfl⟩ := List.exists_cons_of_ne_nil hr'
      have hchar : ¬nameChar c := by simpa using hend'
      obtain ⟨hnone, hmark⟩ := hempty rfl
      obtain ⟨-, -, hstable⟩ := nameLead_stable hr hlead
      refine hturn _ hr' hend' (hstable _ (fun _ ↦ .inr hnone) fun _ ↦ hnone) ?_
      intro a ha
      obtain rfl : c = a := by simpa using ha
      exact ⟨fun hdigit ↦ hchar (nameChar_of_digit c (.inl hdigit)), by simpa using hmark⟩
    | cons c name =>
      have hhigh {s : List Byte} (hs : ¬s.head?.any nameChar) : ¬s.head?.any isHigh := by
        cases s with
        | nil => simp
        | cons a s =>
          have ha : ¬nameChar a := by simpa using hs
          simpa using fun h ↦ ha (nameChar_of_digit a (.inr h))
      have hc : nameChar c := hname c List.mem_cons_self
      refine hturn r' hr' hend' ?_ hclass
      exact @nameLead_name _ _ c v2 x _ hlead (.inr (.inr hc)) fun _ ↦ ⟨hhigh hend, hhigh hend'⟩

/-- What a parameter turn says of its own text, and when it stays the same. -/
theorem parameterTurn_stable (hr : r ≠ [])
    (h : parameterTurn v2 (body ++ r) = (k, body.length + 1)) :
    NameEnd v2 k r ∧ (body = [] → k = .dollar none) ∧
    (∀ b ∈ body.head?, b ≠ dollar ∧ (identifierStart b ↔ k = .native false 1 body.length none) ∧
      (identifierStart b → ∀ c ∈ body, nameChar c)) ∧
    ∀ r', r' ≠ [] → NameEnd v2 k r' → parameterTurn v2 (body ++ r') = (k, body.length + 1) := by
  obtain ⟨lead, hlead⟩ : ∃ n, nameLead (body ++ r) = n := ⟨_, rfl⟩
  cases hrest : (body ++ r).drop lead with
  | nil =>
    simp only [parameterTurn, hlead, hrest, Prod.mk.injEq] at h
    have hlen : lead = body.length := by omega
    rw [hlen, List.drop_left] at hrest
    exact absurd hrest hr
  | cons c rest =>
    have hcases := @parameterTurn_cons c v2 lead rest (body ++ r) hlead hrest
    have hle : lead ≤ body.length := by
      rw [h] at hcases
      rcases hcases with ⟨-, heq⟩ | ⟨-, -, heq⟩ | ⟨-, -, heq⟩
      all_goals
        have := (Prod.mk.inj heq).2
        omega
    obtain ⟨x, name, rfl, rfl⟩ : ∃ x name, body = x ++ name ∧ x.length = lead :=
      ⟨body.take lead, body.drop lead, (List.take_append_drop lead body).symm,
        List.length_take_of_le hle⟩
    rw [List.append_assoc] at hlead hrest hcases h
    rw [List.drop_left] at hrest
    have hx : x ≠ [] → ∀ b ∈ (x ++ name).head?, b ≠ dollar ∧ ¬identifierStart b := by
      intro hx b hb
      obtain ⟨a, x, rfl⟩ := List.exists_cons_of_ne_nil hx
      have hne : nameLead (a :: x ++ (name ++ r)) ≠ 0 := hlead ▸ Nat.succ_ne_zero x.length
      exact (head_of_nameLead hne b hb).symm
    have hstart (hkind : k ≠ .native false 1 (x ++ name).length none)
        (hname : ∀ b ∈ name.head?, b ≠ dollar ∧ ¬identifierStart b) :
        ∀ b ∈ (x ++ name).head?, b ≠ dollar ∧
          (identifierStart b ↔ k = .native false 1 (x ++ name).length none) ∧
          (identifierStart b → ∀ c ∈ x ++ name, nameChar c) := by
      intro b hb
      obtain ⟨hdollar, hb⟩ : b ≠ dollar ∧ ¬identifierStart b := by
        by_cases hxe : x = []
        · subst hxe
          exact hname b hb
        · exact hx hxe b hb
      exact ⟨hdollar, iff_of_false hb hkind, fun h ↦ absurd h hb⟩
    rw [h, ← hrest] at hcases
    simp only [List.append_assoc, List.length_append] at hcases hstart ⊢
    obtain ⟨hdigit, heq⟩ | ⟨hdigit, hmark, heq⟩ | ⟨hdigit, hmark, heq⟩ := hcases
    · obtain ⟨rfl, hlen⟩ := Prod.mk.inj heq
      have hlen : numberLength false (name ++ r) = name.length := by omega
      obtain ⟨hhead, hend, hstable⟩ :=
        @parameterTurn_numeric r v2 x name hlead (by rw [hrest]; simpa using hdigit) hlen
      have hne : name ≠ [] := by
        rintro rfl
        cases hhead
      refine ⟨hend, fun h ↦ absurd (List.append_eq_nil_iff.mp h).2 hne,
        hstart (by simp) ?_, fun r' _ hr' ↦ ?_⟩
      · have hclass : ∀ b : Byte, isDigit b → b ≠ dollar ∧ ¬identifierStart b :=
          forall_byte (by decide)
        intro b hb
        exact hclass b (by simpa [Option.mem_def.mp hb] using hhead)
      · rw [hstable r' hr', hlen]
    · have hskip : skipString c false (name ++ r) = quotedLength c false rest + 1 := by
        rw [hrest]
        rfl
      have hlen := (Prod.mk.inj heq).2
      cases name with
      | nil => simp only [List.length_nil] at hlen; omega
      | cons a name =>
        simp only [List.cons_append, List.cons.injEq] at hrest
        obtain ⟨rfl, rfl⟩ := hrest
        have hquoted : quotedLength a false (name ++ r) = name.length := by
          simp only [List.length_cons] at hlen
          omega
        obtain ⟨hend, hstable⟩ := parameterTurn_quoted hlead hdigit hmark hr hquoted
        refine ⟨?_, fun h ↦ absurd (List.append_eq_nil_iff.mp h).2 (List.cons_ne_nil a name),
          hstart ?_ ?_, fun r' _ hr' ↦ ?_⟩
        · rw [(Prod.mk.inj heq).1]
          split_ifs <;> exact hend
        · rw [(Prod.mk.inj heq).1]
          split_ifs <;> simp
        · have hclass : ∀ b : Byte, identifierQuote true b → b ≠ dollar ∧ ¬identifierStart b :=
            forall_byte (by decide)
          intro b hb
          obtain rfl : a = b := by simpa using hb
          exact hclass a (identifierQuote_true hmark)
        · have hend' : r'.head? ≠ some a := by
            rw [(Prod.mk.inj heq).1] at hr'
            split_ifs at hr' <;> exact hr'
          rw [hstable r' hend', h]
          simp [Nat.add_assoc]
    · obtain ⟨hkind, hlen⟩ := Prod.mk.inj heq
      have hlen : ((name ++ r).takeWhile nameChar).length = name.length := by omega
      have hclass' : ∀ a ∈ (name ++ r).head?, ¬isDigit a ∧ ¬identifierQuote v2 a := by
        rw [hrest]
        rintro a ⟨⟩
        exact ⟨hdigit, hmark⟩
      obtain ⟨hname, hend, hempty, hstable⟩ := parameterTurn_unquoted hlead hr hclass' hlen
      rw [hlen] at hkind
      cases name with
      | nil =>
        obtain rfl : k = .dollar none := hkind
        obtain ⟨hnone, hmark'⟩ := hempty rfl
        refine ⟨⟨hnone, hend, hmark'⟩, fun _ ↦ rfl, hstart (by simp) (by simp),
          fun r' hr' hend' ↦ ?_⟩
        exact hstable r' hr' hend'.2.1 fun _ ↦ ⟨hend'.1, hend'.2.2⟩
      | cons a name =>
        obtain rfl : k = .native false (x.length + 1) (a :: name).length none := hkind
        refine ⟨hend, fun h ↦ absurd (List.append_eq_nil_iff.mp h).2 (List.cons_ne_nil a name), ?_,
          fun r' hr' hend' ↦ ?_⟩
        · intro b hb
          by_cases hxe : x = []
          · subst hxe
            obtain rfl : a = b := by simpa using hb
            have hclass : ∀ b : Byte, nameChar b → ¬isDigit b → b ≠ dollar ∧ identifierStart b :=
              forall_byte (by decide)
            obtain ⟨hdollar, hstart'⟩ :=
              hclass a (hname a List.mem_cons_self) (hclass' a rfl).1
            exact ⟨hdollar, iff_of_true hstart' (by simp), fun _ ↦ by simpa using hname⟩
          · obtain ⟨hdollar, hstart'⟩ := hx hxe b hb
            exact ⟨hdollar, iff_of_false hstart' (by simp [hxe]), fun h ↦ absurd h hstart'⟩
        · exact hstable r' hr' hend' fun h ↦ absurd h (List.cons_ne_nil a name)

end Parameter

end PdoDuckdb.Sql
