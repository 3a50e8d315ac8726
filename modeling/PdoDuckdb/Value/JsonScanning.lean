import PdoDuckdb.Value.JsonGrammar

namespace PdoDuckdb.Value.Json

open Byte

variable {s t u w r body rest : List Byte} {c : Byte} {decode : List Byte → Option (List Byte)}
  {v : List Byte}

def Follows (r : List Byte) : Prop :=
  ∀ c ∈ r.head?, isSpace c ∨ c = comma ∨ c = closeBracket ∨ c = closeBrace

theorem Follows.plain (h : Follows r) : ∀ c ∈ r.head?,
    ¬ isDigit c ∧ c ≠ 0x2e ∧ c ≠ 0x65 ∧ c ≠ 0x45 ∧ c ||| 0x20 ≠ 0x69 := by
  intro c hc
  have hplain : ∀ c : Byte, isSpace c ∨ c = comma ∨ c = closeBracket ∨ c = closeBrace →
      ¬ isDigit c ∧ c ≠ 0x2e ∧ c ≠ 0x65 ∧ c ≠ 0x45 ∧ c ||| 0x20 ≠ 0x69 :=
    forall_byte (by decide)
  exact hplain c (h c hc)

section Spaces

theorem spaces_takeWhile (s : List Byte) : Spaces (s.takeWhile isSpace) :=
  fun _ hc ↦ List.mem_takeWhile_imp hc

theorem dropWhile_spaces (hw : Spaces w) (hr : ∀ c ∈ r.head?, ¬ isSpace c) :
    (w ++ r).dropWhile isSpace = r := by
  rw [List.dropWhile_append_of_pos hw]
  cases r with
  | nil => rfl
  | cons c r => exact List.dropWhile_cons_of_neg (hr c rfl)

theorem dropWhile_head (s : List Byte) : ∀ c ∈ (s.dropWhile isSpace).head?, ¬ isSpace c := by
  intro c hc
  have hne : s.dropWhile isSpace ≠ [] := by
    intro h
    rw [h] at hc
    cases hc
  have hhead := List.head_dropWhile_not isSpace hne
  rw [List.head?_eq_some_head hne] at hc
  obtain rfl := Option.some.inj hc
  simpa using hhead

end Spaces

section Strings

theorem stringEnd_eq (h : stringEnd s = some r) : ∃ t, s = t ++ r ∧ Quoted t := by
  induction s using stringEnd.induct with
  | case1 => cases h
  | case2 =>
    obtain rfl : [] = r := by simpa [stringEnd] using h
    exact ⟨[doubleQuote], rfl, .close⟩
  | case3 c hc => simp [stringEnd, hc] at h
  | case4 d rest ih =>
    simp only [stringEnd, if_true] at h
    obtain ⟨t, rfl, ht⟩ := ih h
    exact ⟨backslash :: d :: t, rfl, .escaped ht⟩
  | case5 d rest hne =>
    simp only [stringEnd, if_neg hne, if_true, Option.some.injEq] at h
    exact ⟨[doubleQuote], by rw [← h]; rfl, .close⟩
  | case6 c d rest hb hq ih =>
    simp only [stringEnd, if_neg hb, if_neg hq] at h
    obtain ⟨t, ht, hquoted⟩ := ih h
    exact ⟨c :: t, by rw [ht]; rfl, .plain hb hq hquoted⟩

theorem stringEnd_quoted (h : Quoted t) (r : List Byte) : stringEnd (t ++ r) = some r := by
  induction h with
  | close => cases r <;> rfl
  | @plain c t hb hq ht ih =>
    cases ht <;> simp_all [stringEnd]
  | @escaped c t ht ih => simpa [stringEnd] using ih

end Strings

section Numbers

theorem digitsEnd_eq (h : digitsEnd s = some r) : ∃ t, s = t ++ r ∧ Digits t := by
  unfold digitsEnd at h
  split at h
  · cases h
  next c rest =>
    split_ifs at h with hc
    obtain rfl := Option.some.inj h
    refine ⟨c :: rest.takeWhile isDigit, ?_, List.cons_ne_nil _ _, ?_⟩
    · rw [List.cons_append, List.takeWhile_append_dropWhile]
    · intro d hd
      obtain rfl | hd := List.mem_cons.mp hd
      · exact hc
      · exact List.mem_takeWhile_imp hd

theorem dropWhile_digits (ht : ∀ c ∈ t, isDigit c) (hr : ∀ c ∈ r.head?, ¬ isDigit c) :
    (t ++ r).dropWhile isDigit = r := by
  rw [List.dropWhile_append_of_pos ht]
  cases r with
  | nil => rfl
  | cons c r => exact List.dropWhile_cons_of_neg (hr c rfl)

theorem digitsEnd_digits (ht : Digits t) (hr : ∀ c ∈ r.head?, ¬ isDigit c) :
    digitsEnd (t ++ r) = some r := by
  obtain ⟨hne, hall⟩ := ht
  cases t with
  | nil => exact absurd rfl hne
  | cons c t =>
    simp only [List.cons_append, digitsEnd, hall c List.mem_cons_self, if_true]
    rw [dropWhile_digits (fun d hd ↦ hall d (List.mem_cons_of_mem c hd)) hr]

theorem integerEnd_eq (h : integerEnd s = some r) : ∃ t, s = t ++ r ∧ IsInteger t := by
  unfold integerEnd at h
  split at h
  · cases h
  next c rest =>
    split_ifs at h with hzero hdigit
    · obtain rfl := Option.some.inj h
      exact ⟨[0x30], by rw [hzero]; rfl, .inl rfl⟩
    · obtain rfl := Option.some.inj h
      refine ⟨c :: rest.takeWhile isDigit, ?_, .inr ⟨c, _, rfl, hdigit.1, hdigit.2, ?_⟩⟩
      · rw [List.cons_append, List.takeWhile_append_dropWhile]
      · exact fun d hd ↦ List.mem_takeWhile_imp hd

theorem integerEnd_integer (ht : IsInteger t) (hr : ∀ c ∈ r.head?, ¬ isDigit c) :
    integerEnd (t ++ r) = some r := by
  obtain rfl | ⟨c, u, rfl, hlow, hhigh, hu⟩ := ht
  · rfl
  · have hne : c ≠ 0x30 := by
      rintro rfl
      exact absurd hlow (by decide)
    simp only [List.cons_append, integerEnd, if_neg hne, if_pos (And.intro hlow hhigh)]
    rw [dropWhile_digits hu hr]

theorem fractionEnd_eq (h : fractionEnd s = some r) : ∃ t, s = t ++ r ∧ IsFraction t := by
  unfold fractionEnd at h
  split at h
  · exact ⟨[], Option.some.inj h, .inl rfl⟩
  next c rest =>
    split_ifs at h with hdot
    · obtain ⟨t, rfl, ht⟩ := digitsEnd_eq h
      exact ⟨0x2e :: t, by rw [hdot]; rfl, .inr ⟨t, rfl, ht⟩⟩
    · exact ⟨[], Option.some.inj h, .inl rfl⟩

theorem fractionEnd_fraction (ht : IsFraction t)
    (hr : ∀ c ∈ r.head?, ¬ isDigit c ∧ c ≠ 0x2e) : fractionEnd (t ++ r) = some r := by
  obtain rfl | ⟨u, rfl, hu⟩ := ht
  · cases r with
    | nil => rfl
    | cons c r => simp [fractionEnd, (hr c rfl).2]
  · simpa [fractionEnd] using digitsEnd_digits hu fun c hc ↦ (hr c hc).1

theorem dropSign_eq (s : List Byte) :
    ∃ sign, s = sign ++ dropSign s ∧ (sign = [] ∨ sign = [0x2b] ∨ sign = [minus]) := by
  unfold dropSign
  split
  · exact ⟨[], rfl, .inl rfl⟩
  next c rest =>
    split_ifs with hc
    · obtain rfl | rfl := hc
      · exact ⟨[0x2b], rfl, .inr (.inl rfl)⟩
      · exact ⟨[minus], rfl, .inr (.inr rfl)⟩
    · exact ⟨[], rfl, .inl rfl⟩

theorem exponentEnd_eq (h : exponentEnd s = some r) : ∃ t, s = t ++ r ∧ IsExponent t := by
  unfold exponentEnd at h
  split at h
  · exact ⟨[], Option.some.inj h, .inl rfl⟩
  next c rest =>
    split_ifs at h with he
    · obtain ⟨sign, hsign, hcases⟩ := dropSign_eq rest
      obtain ⟨t, ht, hdigits⟩ := digitsEnd_eq h
      refine ⟨c :: (sign ++ t), ?_, .inr ⟨c, sign, t, rfl, he, hcases, hdigits⟩⟩
      rw [hsign, ht]
      simp
    · exact ⟨[], Option.some.inj h, .inl rfl⟩

theorem dropSign_digits {sign : List Byte} (hs : sign = [] ∨ sign = [0x2b] ∨ sign = [minus])
    (hu : Digits u) : dropSign (sign ++ (u ++ r)) = u ++ r := by
  obtain rfl | rfl | rfl := hs
  · obtain ⟨hne, hall⟩ := hu
    cases u with
    | nil => exact absurd rfl hne
    | cons c u =>
      have hdigit : ∀ c : Byte, isDigit c → ¬ (c = 0x2b ∨ c = minus) := forall_byte (by decide)
      simp [dropSign, hdigit c (hall c List.mem_cons_self)]
  · rfl
  · rfl

theorem exponentEnd_exponent (ht : IsExponent t)
    (hr : ∀ c ∈ r.head?, ¬ isDigit c ∧ c ≠ 0x65 ∧ c ≠ 0x45) : exponentEnd (t ++ r) = some r := by
  obtain rfl | ⟨e, sign, u, rfl, he, hsign, hu⟩ := ht
  · cases r with
    | nil => rfl
    | cons c r => simp [exponentEnd, (hr c rfl).2]
  · simp only [List.cons_append, List.append_assoc, exponentEnd, if_pos he]
    rw [dropSign_digits hsign hu]
    exact digitsEnd_digits hu fun c hc ↦ (hr c hc).1

/-- Setting the bit of lower case makes a lower-case letter of letters only. -/
theorem lowercase_of_or : ∀ c : Byte, 0x61 ≤ c ||| 0x20 ∧ c ||| 0x20 ≤ 0x7a →
    lowercase c = c ||| 0x20 :=
  forall_byte (by decide)

theorem or_of_lowercase : ∀ c : Byte, 0x61 ≤ lowercase c ∧ lowercase c ≤ 0x7a →
    c ||| 0x20 = lowercase c :=
  forall_byte (by decide)

def LowerCase (ws : List Byte) : Prop := ∀ w ∈ ws, 0x61 ≤ w ∧ w ≤ 0x7a

theorem word_eq {ws : List Byte} (hws : LowerCase ws) (h : word s ws) :
    ∃ t, s = t ++ s.drop ws.length ∧ t.map lowercase = ws := by
  induction ws generalizing s with
  | nil => exact ⟨[], rfl, rfl⟩
  | cons w ws ih =>
    cases s with
    | nil => cases h
    | cons c s =>
      simp only [word, Bool.and_eq_true, beq_iff_eq] at h
      obtain ⟨t, hs, ht⟩ := ih (fun w hw ↦ hws w (List.mem_cons_of_mem _ hw)) h.2
      have hw := hws w List.mem_cons_self
      refine ⟨c :: t, ?_, ?_⟩
      · rw [List.length_cons, List.drop_succ_cons, List.cons_append, ← hs]
      · rw [List.map_cons, ht, lowercase_of_or c (by rwa [h.1]), h.1]

theorem word_append (hws : LowerCase (t.map lowercase)) (r : List Byte) :
    word (t ++ r) (t.map lowercase) := by
  induction t with
  | nil => simp [word]
  | cons c t ih =>
    have hc := hws (lowercase c) List.mem_cons_self
    simp only [List.cons_append, List.map_cons, word, Bool.and_eq_true, beq_iff_eq]
    exact ⟨or_of_lowercase c hc, ih fun w hw ↦ hws w (List.mem_cons_of_mem _ hw)⟩

theorem word_head {w : Byte} {ws : List Byte} (h : word (c :: s) (w :: ws)) : c ||| 0x20 = w := by
  simp only [word, Bool.and_eq_true, beq_iff_eq] at h
  exact h.1

theorem word_of_append {us ws : List Byte} (hlen : t.length = us.length)
    (h : word (t ++ r) (us ++ ws)) : word r ws := by
  induction t generalizing us with
  | nil =>
    obtain rfl := List.length_eq_zero_iff.mp hlen.symm
    exact h
  | cons c t ih =>
    cases us with
    | nil => cases hlen
    | cons u us =>
      simp only [List.cons_append, word, Bool.and_eq_true] at h
      exact ih (Nat.succ.inj hlen) h.2

theorem word_left {us ws : List Byte} (h : word s (us ++ ws)) : word s us := by
  induction us generalizing s with
  | nil => simp [word]
  | cons u us ih =>
    cases s with
    | nil => cases h
    | cons c s =>
      simp only [List.cons_append, word, Bool.and_eq_true] at h ⊢
      exact ⟨h.1, ih h.2⟩

theorem lowerCase_nan : LowerCase nan := by
  have h : nan = [0x6e, 0x61, 0x6e] := rfl
  simp [LowerCase, h]

theorem lowerCase_inf : LowerCase inf := by
  have h : inf = [0x69, 0x6e, 0x66] := rfl
  simp [LowerCase, h]

theorem lowerCase_infinity : LowerCase infinity := by
  have h : infinity = [0x69, 0x6e, 0x66, 0x69, 0x6e, 0x69, 0x74, 0x79] := rfl
  simp [LowerCase, h]

theorem unsignedEnd_eq (h : unsignedEnd s = some r) :
    ∃ t, s = t ++ r ∧ (IsNonFinite t ∨
      ∃ i f e, t = i ++ (f ++ e) ∧ IsInteger i ∧ IsFraction f ∧ IsExponent e) := by
  unfold unsignedEnd at h
  split_ifs at h with hnil hnan hinfinity hinf
  · obtain ⟨t, hs, ht⟩ := word_eq lowerCase_nan hnan
    exact ⟨t, by rw [← Option.some.inj h, ← hs], .inl (.inl ht)⟩
  · obtain ⟨t, hs, ht⟩ := word_eq lowerCase_infinity hinfinity
    exact ⟨t, by rw [← Option.some.inj h, ← hs], .inl (.inr (.inr ht))⟩
  · obtain ⟨t, hs, ht⟩ := word_eq lowerCase_inf hinf
    exact ⟨t, by rw [← Option.some.inj h, ← hs], .inl (.inr (.inl ht))⟩
  · obtain ⟨s₁, hi, h⟩ := Option.bind_eq_some_iff.mp h
    obtain ⟨s₂, hf, he⟩ := Option.bind_eq_some_iff.mp h
    obtain ⟨i, rfl, hinteger⟩ := integerEnd_eq hi
    obtain ⟨f, rfl, hfraction⟩ := fractionEnd_eq hf
    obtain ⟨e, rfl, hexponent⟩ := exponentEnd_eq he
    exact ⟨i ++ (f ++ e), by simp, .inr ⟨i, f, e, rfl, hinteger, hfraction, hexponent⟩⟩

/-- The byte that a text and a word with the same spelling start with. -/
theorem head_of_map {l : Byte} {ls : List Byte} (ht : t.map lowercase = l :: ls)
    (hl : 0x61 ≤ l ∧ l ≤ 0x7a) : ∃ a t', t = a :: t' ∧ a ||| 0x20 = l := by
  cases t with
  | nil => cases ht
  | cons a t' =>
    obtain ⟨rfl, -⟩ := List.cons.inj ht
    exact ⟨a, t', rfl, or_of_lowercase a hl⟩

theorem not_word_nan {ls : List Byte} (ht : t.map lowercase = 0x69 :: ls) (r : List Byte) :
    ¬ word (t ++ r) nan := by
  obtain ⟨a, t', rfl, ha⟩ := head_of_map ht (by decide)
  intro h
  have hn : a ||| 0x20 = 0x6e := word_head h
  rw [ha] at hn
  cases hn

/-- Each of the three words is recognised: no earlier one is a start of it, and
what follows does not make a longer one. -/
theorem unsignedEnd_word (ht : IsNonFinite t) (hr : Follows r) : unsignedEnd (t ++ r) = some r := by
  have hne : t ++ r ≠ [] := by
    intro h
    obtain ⟨rfl, rfl⟩ := List.append_eq_nil_iff.mp h
    obtain h | h | h := ht <;> cases h
  have hlength : ∀ ws : List Byte, t.map lowercase = ws → (t ++ r).drop ws.length = r := by
    rintro ws rfl
    rw [List.length_map, List.drop_left]
  have hword : ∀ ws : List Byte, LowerCase ws → t.map lowercase = ws → word (t ++ r) ws := by
    rintro ws hws rfl
    exact word_append hws r
  unfold unsignedEnd
  rw [if_neg hne]
  obtain hnan | hinf | hinfinity := ht
  · rw [if_pos (hword nan lowerCase_nan hnan), hlength nan hnan]
  · have hlonger : ¬ word (t ++ r) infinity := by
      intro h
      have hlen : t.length = inf.length := by
        rw [← List.length_map lowercase, hinf]
        rfl
      have h : word r (0x69 :: ascii "nity") := word_of_append hlen h
      cases r with
      | nil => cases h
      | cons c r => exact (hr.plain c rfl).2.2.2.2 (word_head h)
    rw [if_neg (not_word_nan hinf r), if_neg hlonger, if_pos (hword inf lowerCase_inf hinf),
      hlength inf hinf]
  · rw [if_neg (not_word_nan hinfinity r), if_pos (hword infinity lowerCase_infinity hinfinity),
      hlength infinity hinfinity]

theorem IsInteger.head (ht : IsInteger t) : ∃ c u, t = c :: u ∧ isDigit c := by
  obtain rfl | ⟨c, u, rfl, hlow, hhigh, -⟩ := ht
  · exact ⟨0x30, [], rfl, rfl⟩
  · have hdigit : ∀ c : Byte, 0x31 ≤ c → c ≤ 0x39 → isDigit c := forall_byte (by decide)
    exact ⟨c, u, rfl, hdigit c hlow hhigh⟩

/-- What a fraction, an exponent and the rest start with, none of them present
or all. -/
theorem head_of_exponent (ht : IsExponent t) (hr : Follows r) :
    ∀ c ∈ (t ++ r).head?, ¬ isDigit c ∧ c ≠ 0x2e := by
  obtain rfl | ⟨e, sign, u, rfl, he, -, -⟩ := ht
  · intro c hc
    obtain ⟨hdigit, hdot, -⟩ := hr.plain c hc
    exact ⟨hdigit, hdot⟩
  · intro c hc
    obtain rfl := Option.some.inj hc
    obtain rfl | rfl := he <;> decide

theorem head_of_fraction (ht : IsFraction t) (hu : ∀ c ∈ u.head?, ¬ isDigit c ∧ c ≠ 0x2e) :
    ∀ c ∈ (t ++ u).head?, ¬ isDigit c := by
  obtain rfl | ⟨v, rfl, -⟩ := ht
  · exact fun c hc ↦ (hu c hc).1
  · intro c hc
    obtain rfl := Option.some.inj hc
    decide

theorem unsignedEnd_number {i f e : List Byte} (hi : IsInteger i) (hf : IsFraction f)
    (he : IsExponent e) (hr : Follows r) : unsignedEnd (i ++ (f ++ (e ++ r))) = some r := by
  have hexponent := head_of_exponent he hr
  have hfraction := head_of_fraction hf hexponent
  have hletter : ∀ ws : List Byte, ∀ w : Byte, 0x61 ≤ w →
      ¬ word (i ++ (f ++ (e ++ r))) (w :: ws) := by
    obtain ⟨c, u, rfl, hc⟩ := hi.head
    intro ws w hw h
    have hlow : ∀ c : Byte, isDigit c → ¬ 0x61 ≤ c ||| 0x20 := forall_byte (by decide)
    exact hlow c hc (by rwa [word_head h])
  have hne : i ++ (f ++ (e ++ r)) ≠ [] := by
    obtain ⟨c, u, rfl, -⟩ := hi.head
    exact List.cons_ne_nil _ _
  have hnan : ¬ word (i ++ (f ++ (e ++ r))) nan := hletter _ 0x6e (by decide)
  have hinfinity : ¬ word (i ++ (f ++ (e ++ r))) infinity := hletter _ 0x69 (by decide)
  have hinf : ¬ word (i ++ (f ++ (e ++ r))) inf := hletter _ 0x69 (by decide)
  unfold unsignedEnd
  rw [if_neg hne, if_neg hnan, if_neg hinfinity, if_neg hinf, integerEnd_integer hi hfraction, Option.bind_some,
    fractionEnd_fraction hf hexponent, Option.bind_some]
  refine exponentEnd_exponent he fun c hc ↦ ?_
  obtain ⟨hdigit, -, hlower, hupper, -⟩ := hr.plain c hc
  exact ⟨hdigit, hlower, hupper⟩

theorem numberEnd_eq (h : numberEnd s = some r) : ∃ t, s = t ++ r ∧ IsNumber t := by
  unfold numberEnd at h
  split_ifs at h with hminus
  · obtain ⟨t, hs, ht⟩ := unsignedEnd_eq h
    refine ⟨minus :: t, ?_, [minus], t, rfl, .inr rfl, ht⟩
    rw [List.cons_append, ← hs]
    exact (List.cons_head?_tail hminus).symm
  · obtain ⟨t, hs, ht⟩ := unsignedEnd_eq h
    exact ⟨t, hs, [], t, rfl, .inl rfl, ht⟩

/-- An unsigned number does not start with a minus. -/
theorem unsigned_head (ht : IsNonFinite t ∨
    ∃ i f e, t = i ++ (f ++ e) ∧ IsInteger i ∧ IsFraction f ∧ IsExponent e) :
    ∃ c u, t = c :: u ∧ (isDigit c ∨ c ||| 0x20 = 0x6e ∨ c ||| 0x20 = 0x69) := by
  obtain (h | h | h) | ⟨i, f, e, rfl, hi, -, -⟩ := ht
  · obtain ⟨a, t', rfl, ha⟩ := head_of_map h (by decide)
    exact ⟨a, t', rfl, .inr (.inl ha)⟩
  · obtain ⟨a, t', rfl, ha⟩ := head_of_map h (by decide)
    exact ⟨a, t', rfl, .inr (.inr ha)⟩
  · obtain ⟨a, t', rfl, ha⟩ := head_of_map h (by decide)
    exact ⟨a, t', rfl, .inr (.inr ha)⟩
  · obtain ⟨c, u, rfl, hc⟩ := hi.head
    exact ⟨c, u ++ (f ++ e), rfl, .inl hc⟩

theorem numberEnd_number (ht : IsNumber t) (hr : Follows r) : numberEnd (t ++ r) = some r := by
  obtain ⟨sign, body, rfl, hsign, hbody⟩ := ht
  have hunsigned : unsignedEnd (body ++ r) = some r := by
    obtain hword | ⟨i, f, e, rfl, hi, hf, he⟩ := hbody
    · exact unsignedEnd_word hword hr
    · simp only [List.append_assoc]
      exact unsignedEnd_number hi hf he hr
  obtain rfl | rfl := hsign
  · obtain ⟨c, u, rfl, hc⟩ := unsigned_head hbody
    have hminus : ∀ c : Byte, isDigit c ∨ c ||| 0x20 = 0x6e ∨ c ||| 0x20 = 0x69 → c ≠ minus :=
      forall_byte (by decide)
    unfold numberEnd
    rw [if_neg (by simpa using hminus c hc)]
    exact hunsigned
  · exact hunsigned

/-- A number starts with a minus, a digit or one of the words. -/
theorem IsNumber.starts (ht : IsNumber t) (r : List Byte) : ∃ c u, t = c :: u ∧
    (c = minus ∨ isDigit c ∨ word (t ++ r) nan ∨ word (t ++ r) inf) := by
  obtain ⟨sign, body, rfl, rfl | rfl, hbody⟩ := ht
  · obtain hword | ⟨i, f, e, rfl, hi, -, -⟩ := hbody
    · obtain ⟨c, u, hc, -⟩ := unsigned_head (.inl hword)
      refine ⟨c, u, hc, .inr (.inr ?_)⟩
      obtain h | h | h := hword
      · have hnan : word (body ++ r) (body.map lowercase) := word_append (h ▸ lowerCase_nan) r
        rw [h] at hnan
        exact .inl hnan
      · have hinf : word (body ++ r) (body.map lowercase) := word_append (h ▸ lowerCase_inf) r
        rw [h] at hinf
        exact .inr hinf
      · have hinfinity : word (body ++ r) (body.map lowercase) :=
          word_append (h ▸ lowerCase_infinity) r
        rw [h] at hinfinity
        have hlong : word (body ++ r) (inf ++ ascii "inity") := hinfinity
        exact .inr (word_left hlong)
    · obtain ⟨c, u, rfl, hc⟩ := hi.head
      exact ⟨c, u ++ (f ++ e), rfl, .inr (.inl hc)⟩
  · exact ⟨minus, body, rfl, .inl rfl⟩

end Numbers

end PdoDuckdb.Value.Json
