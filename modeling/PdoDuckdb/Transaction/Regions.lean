import PdoDuckdb.Sql.Boundaries
import PdoDuckdb.Transaction.Tokens

namespace PdoDuckdb.Transaction

open Byte Library.Scanning Sql

inductive Region
  | outside
  | string
  | escapeString
  | quotedIdentifier
  | dollarString
  | comment
deriving DecidableEq, Repr

def Trivia.region : Trivia → Region
  | .blank => .outside
  | .comment => .comment

def Lex.region : Lex → Region
  | .comment => .comment
  | .escapeString => .escapeString
  | .string => .string
  | .quotedWord _ => .quotedIdentifier
  | .dollarQuote => .dollarString
  | .blank | .word | .symbol _ => .outside

def lexRegions (ls : List (Lexeme Byte Lex)) : List Region :=
  ls.flatMap fun l ↦ .replicate l.text.length l.kind.region

/-- The region of each byte for the tokenizer of the transaction tracker. -/
def tokenizerRegions (sql : List Byte) : List Region := lexRegions (tokenizer.scan sql)

def triviaRegions : ℕ → List Byte → List Region
  | 0, _ => []
  | fuel + 1, s =>
    match triviaStep s with
    | some (t, n) => .replicate n (Trivia.region t) ++ triviaRegions fuel (s.drop n)
    | none => []

/-- The regions of what `nameLead` counts. -/
def leadRegions (s : List Byte) : List Region :=
  if s.head?.any isHigh then [] else triviaRegions s.length s

def markRegion (mark : Byte) : Region := if mark = quote then .string else .quotedIdentifier

/-- The regions of a planner's piece before the rest `r` of the text. Behind the `$` of a
parameter there are blanks and comments before its name. -/
def pieceRegions (l : Lexeme Byte Piece) (r : List Byte) : List Region :=
  match l.kind with
  | .comment => .replicate l.text.length .comment
  | .escapeString => .replicate l.text.length .escapeString
  | .quoted mark => .replicate l.text.length (markRegion mark)
  | .dollarString => .replicate l.text.length .dollarString
  | .dollar mark | .native _ _ _ mark =>
    let s := l.text.tail ++ r
    .outside :: (leadRegions s ++
      .replicate (l.text.tail.length - nameLead s) ((mark.map markRegion).getD .outside))
  | _ => .replicate l.text.length .outside

def piecesRegions : List (Lexeme Byte Piece) → List Region
  | [] => []
  | l :: ls => pieceRegions l (source ls) ++ piecesRegions ls

def plannerRegions (v2 : Bool) (sql : List Byte) : List Region :=
  piecesRegions ((planner v2).scan sql)

def nextOpen (w : Bool) (c : Byte) : Bool := if w then wordContinue c else wordStart c

def wordAfter (w : Bool) (t : List Byte) : Bool := t.foldl nextOpen w

def startsString (c : Byte) (s : List Byte) : Bool :=
  (isEscapeMark c && s.head? == some quote) || (c == dollar && skipDollarQuote (c :: s) != 0)

def opensString (r : List Byte) : Bool → List Byte → Bool
  | _, [] => false
  | w, c :: t => (!w && startsString c (t ++ r)) || opensString r (nextOpen w c) t

/-- The bytes of a piece that may lie in words of the tokenizer, and whether one is open
before them. -/
def wordPart (w : Bool) (l : Lexeme Byte Piece) : Bool × List Byte :=
  match l.kind with
  | .native _ nameStart _ none => (w && nameStart == 1, l.text.drop nameStart)
  | .dollar none => (w && l.text.length == 1, [])
  | .identifier | .named | .semicolon | .cast | .questions | .positional | .other => (w, l.text)
  | _ => (false, [])

def carry (w : Bool) (l : Lexeme Byte Piece) : Bool := wordAfter (wordPart w l).1 (wordPart w l).2

/-- A piece the tokenizer takes for something else: backtick quotes, a string where a word
is open, a string within a name. -/
def Clash (w : Bool) (l : Lexeme Byte Piece) (r : List Byte) : Prop :=
  l.kind.mark = some backtick ∨
    (w ∧ (l.kind = .escapeString ∨ l.kind = .dollarString)) ∨
    opensString r (wordPart w l).1 (wordPart w l).2

def Clashes : Bool → List (Lexeme Byte Piece) → Prop
  | _, [] => False
  | w, l :: ls => Clash w l (source ls) ∨ Clashes (carry w l) ls

section Tokenizer

variable {w : Bool} {c : Byte} {s t r : List Byte} {X : List Region}

theorem tokenizer_run (n : ℕ) (p q : Option Byte) (s : List Byte) :
    tokenizer.run n p s = tokenizer.run n q s := by
  induction n generalizing p q s with
  | zero => rfl
  | succ n ih =>
    cases s with
    | nil => rfl
    | cons c s =>
      simp only [Scanner.run]
      exact congrArg _ (ih _ _ _)

def freeRegions (s : List Byte) : List Region := lexRegions (tokenizer.run s.length none s)

def restRegions (w : Bool) (s : List Byte) : List Region :=
  if w then
    .replicate (s.takeWhile wordContinue).length .outside ++
      freeRegions (s.drop (s.takeWhile wordContinue).length)
  else freeRegions s

@[simp] theorem restRegions_false (s : List Byte) : restRegions false s = freeRegions s := rfl

@[simp] theorem freeRegions_nil : freeRegions [] = [] := rfl

@[simp] theorem restRegions_nil (w : Bool) : restRegions w [] = [] := by cases w <;> rfl

theorem freeRegions_cons {k : Lex} {n : ℕ} (h : lexTurn none (c :: s) = (k, n)) :
    freeRegions (c :: s) = .replicate n k.region ++ freeRegions ((c :: s).drop n) := by
  have hle : n ≤ (c :: s).length := by
    have := tokenizer.le none (c :: s)
    rwa [show tokenizer.step none (c :: s) = (k, n) from h] at this
  rw [freeRegions, tokenizer.run_cons h, lexRegions, List.flatMap_cons, List.length_take_of_le hle,
    tokenizer_run _ _ none]
  rfl

theorem restRegions_true_cons (c : Byte) (s : List Byte) : restRegions true (c :: s) =
    if wordContinue c then .outside :: restRegions true s else freeRegions (c :: s) := by
  by_cases h : wordContinue c
  · simp [restRegions, h, List.replicate_succ]
  · simp [restRegions, h]

/-- A word that is open ends before a byte that continues none. -/
theorem restRegions_stop (w : Bool) (h : ¬wordContinue c) :
    restRegions w (c :: s) = freeRegions (c :: s) := by
  cases w with
  | false => rfl
  | true => rw [restRegions_true_cons, if_neg h]

theorem freeRegions_token {k : Lex} {n : ℕ} (hnone : triviaStep (c :: s) = none)
    (h : lexToken c s = (k, n)) :
    freeRegions (c :: s) = .replicate n k.region ++ freeRegions ((c :: s).drop n) := by
  apply freeRegions_cons
  rw [lexTurn, hnone]
  exact h

theorem freeRegions_trivia {k : Trivia} {n : ℕ} (h : triviaStep (c :: s) = some (k, n)) :
    freeRegions (c :: s) = .replicate n (Trivia.region k) ++ freeRegions ((c :: s).drop n) := by
  have hregion : (Trivia.lex k).region = Trivia.region k := by cases k <;> rfl
  rw [← hregion]
  apply freeRegions_cons
  rw [lexTurn, h]

/-- A byte the tokenizer takes alone, or as the first of a word. -/
theorem freeRegions_token_plain (hnone : triviaStep (c :: s) = none)
    (hquote : c ≠ quote ∧ c ≠ doubleQuote) (hstring : ¬startsString c s) :
    freeRegions (c :: s) = .outside :: restRegions (wordStart c) s := by
  have hescape : ¬(isEscapeMark c ∧ s.head? = some quote) := fun h ↦
    hstring (by simp [startsString, h])
  have hdollar : ¬(c = dollar ∧ skipDollarQuote (c :: s) ≠ 0) := fun h ↦
    hstring (by simp [startsString, ← h.1, h.2])
  by_cases hword : wordStart c
  · have h : lexToken c s = (.word, (s.takeWhile wordContinue).length + 1) := by
      rw [lexToken, if_neg hescape, if_neg hquote.1, if_neg hquote.2, if_neg hdollar, if_pos hword]
    rw [freeRegions_token hnone h, hword]
    rfl
  · have h : lexToken c s = (.symbol c, 1) := by
      rw [lexToken, if_neg hescape, if_neg hquote.1, if_neg hquote.2, if_neg hdollar, if_neg hword]
    rw [freeRegions_token hnone h, Bool.eq_false_iff.mpr hword]
    rfl

end Tokenizer

section High

variable {c : Byte} {s t : List Byte}

/-- The bytes of a Unicode space behind the first. -/
def isContinuation (c : Byte) : Bool := 0x80 ≤ c && c ≤ 0xbf

theorem spaceLength_continuation (h : isContinuation c) (s : List Byte) :
    spaceLength (c :: s) = 0 := by
  have hne : ∀ c : Byte, isContinuation c → c ≠ 0xc2 ∧ c ≠ 0xe2 ∧ c ≠ 0xe3 ∧ c ≠ 0xef :=
    forall_byte (by decide)
  obtain ⟨h₁, h₂, h₃, h₄⟩ := hne c h
  match s with
  | [] => rfl
  | [b] => simp [spaceLength, h₁]
  | b :: d :: s => simp [spaceLength, h₁, h₂, h₃, h₄]

theorem exists_continuation (h : spaceLength (c :: s) ≠ 0) :
    ∃ t u, s = t ++ u ∧ spaceLength (c :: s) = t.length + 1 ∧ ∀ b ∈ t, isContinuation b := by
  have hclass : ∀ d : Byte, (0x80 ≤ d ∧ d ≤ 0x8a) ∨ d = 0xaf → isContinuation d :=
    forall_byte (by decide)
  match s with
  | [] => exact absurd rfl h
  | [b] =>
    simp only [spaceLength] at h ⊢
    split_ifs at h ⊢ with hspace
    · rw [hspace.2]
      exact ⟨[0xa0], [], rfl, rfl, List.forall_mem_singleton.mpr (by decide)⟩
    · exact absurd rfl h
  | b :: d :: s =>
    simp only [spaceLength] at h ⊢
    split_ifs at h ⊢ with h₁ h₂ h₃
    · rw [h₁.2]
      exact ⟨[0xa0], d :: s, rfl, rfl, List.forall_mem_singleton.mpr (by decide)⟩
    · rw [h₂.2.1]
      refine ⟨[0x80, d], s, rfl, rfl, ?_⟩
      simpa using ⟨by decide, hclass d h₂.2.2⟩
    · refine ⟨[b, d], s, rfl, rfl, ?_⟩
      rcases h₃ with ⟨-, rfl, rfl⟩ | ⟨-, rfl, rfl⟩ | ⟨-, rfl, rfl⟩
      all_goals
        exact List.forall_mem_cons.mpr ⟨by decide, List.forall_mem_singleton.mpr (by decide)⟩
    · exact absurd rfl h

theorem high_class : ∀ c : Byte, isHigh c → isBlank c = false ∧ c ≠ minus ∧ c ≠ slash ∧
    c ≠ quote ∧ c ≠ doubleQuote ∧ c ≠ dollar ∧ isEscapeMark c = false ∧ wordContinue c = false :=
  forall_byte (by decide)

theorem wordContinue_of_start : ∀ c : Byte, wordStart c → wordContinue c := forall_byte (by decide)

theorem freeRegions_high_symbol (hc : isHigh c) (hspace : spaceLength (c :: s) = 0) :
    freeRegions (c :: s) = .outside :: freeRegions s := by
  obtain ⟨hblank, hminus, hslash, hquote, hdouble, hdollar, hescape, hword⟩ := high_class c hc
  have hnone : triviaStep (c :: s) = none :=
    triviaStep_eq_none.mpr ⟨hspace, hblank, fun h ↦ hminus h.1, fun h ↦ hslash h.1⟩
  have hstring : ¬startsString c s := by simp [startsString, hescape, hdollar]
  have hstart : wordStart c = false := by
    rw [← Bool.not_eq_true] at hword ⊢
    exact fun h ↦ hword (wordContinue_of_start c h)
  rw [freeRegions_token_plain hnone ⟨hquote, hdouble⟩ hstring, hstart, restRegions_false]

theorem freeRegions_continuation (ht : ∀ b ∈ t, isContinuation b) (s : List Byte) :
    freeRegions (t ++ s) = .replicate t.length .outside ++ freeRegions s := by
  induction t with
  | nil => rfl
  | cons c t ih =>
    obtain ⟨hc, ht⟩ := List.forall_mem_cons.mp ht
    have hhigh : ∀ c : Byte, isContinuation c → isHigh c := forall_byte (by decide)
    rw [List.cons_append, freeRegions_high_symbol (hhigh c hc) (spaceLength_continuation hc _), ih ht]
    rfl

/-- A high byte opens nothing, as part of a Unicode space or alone. -/
theorem freeRegions_high (hc : isHigh c) (s : List Byte) :
    freeRegions (c :: s) = .outside :: freeRegions s := by
  by_cases hspace : spaceLength (c :: s) = 0
  · exact freeRegions_high_symbol hc hspace
  · obtain ⟨t, u, rfl, hlength, ht⟩ := exists_continuation hspace
    have hstep : triviaStep (c :: (t ++ u)) = some (.blank, t.length + 1) := by
      rw [triviaStep, if_pos hspace, hlength]
    rw [freeRegions_trivia hstep, freeRegions_continuation ht, List.drop_succ_cons,
      List.drop_left]
    rfl

end High

section Bytes

variable {w : Bool} {c : Byte} {s t r : List Byte} {X : List Region}

def Plain (c : Byte) (s : List Byte) : Prop :=
  (isHigh c ∨ triviaStep (c :: s) = none) ∧ c ≠ quote ∧ c ≠ doubleQuote

theorem restRegions_plain (hc : Plain c s) (hstring : w = false → ¬startsString c s) :
    restRegions w (c :: s) = .outside :: restRegions (nextOpen w c) s := by
  have hfree (h : ¬startsString c s) :
      freeRegions (c :: s) = .outside :: restRegions (wordStart c) s := by
    by_cases hhigh : isHigh c
    · have hstart : wordStart c = false := by
        have hclass : ∀ c : Byte, isHigh c → wordStart c = false := forall_byte (by decide)
        exact hclass c hhigh
      rw [freeRegions_high hhigh, hstart, restRegions_false]
    · exact freeRegions_token_plain (hc.1.resolve_left hhigh) hc.2 h
  cases w with
  | false => exact hfree (hstring rfl)
  | true =>
    rw [restRegions_true_cons]
    by_cases hword : wordContinue c
    · rw [if_pos hword]
      simp [nextOpen, hword]
    · have hstart : wordStart c = false := by
        rw [← Bool.not_eq_true]
        exact fun h ↦ hword (wordContinue_of_start c h)
      have hclass : ∀ c : Byte, isEscapeMark c ∨ c = dollar → wordContinue c :=
        forall_byte (by decide)
      have hopens : ¬startsString c s := by
        intro h
        apply hword
        apply hclass
        simp only [startsString, Bool.or_eq_true, Bool.and_eq_true, beq_iff_eq] at h
        exact h.imp And.left And.left
      rw [if_neg hword, hfree hopens, hstart]
      simp [nextOpen, hword]

/-- The tokenizer starts a string where it can. -/
theorem freeRegions_string (h : startsString c s) : ∃ k Y,
    (k = .escapeString ∨ k = .dollarString) ∧ freeRegions (c :: s) = k :: Y := by
  simp only [startsString, Bool.or_eq_true, Bool.and_eq_true, beq_iff_eq, bne_iff_ne] at h
  have hclass : ∀ c : Byte, isEscapeMark c ∨ c = dollar → ¬isHigh c ∧ isBlank c = false ∧
      c ≠ minus ∧ c ≠ slash ∧ c ≠ quote ∧ c ≠ doubleQuote := forall_byte (by decide)
  obtain ⟨hhigh, hblank, hminus, hslash, hquote, hdouble⟩ := hclass c (h.imp And.left And.left)
  have hnone : triviaStep (c :: s) = none := triviaStep_plain hhigh hblank hminus hslash s
  by_cases hescape : isEscapeMark c ∧ s.head? = some quote
  · have hlex : lexToken c s = (.escapeString, skipQuoted quote true s + 1) := by
      rw [lexToken, if_pos hescape]
    exact ⟨.escapeString, _, .inl rfl, freeRegions_token hnone hlex⟩
  · have hdollar := h.resolve_left hescape
    have hlex : lexToken c s = (.dollarQuote, skipDollarQuote (c :: s)) := by
      rw [lexToken, if_neg hescape, if_neg hquote, if_neg hdouble, if_pos hdollar]
    obtain ⟨n, hn⟩ := Nat.exists_eq_succ_of_ne_zero hdollar.2
    rw [hn] at hlex
    exact ⟨.dollarString, _, .inr rfl, freeRegions_token hnone hlex⟩

/-- Bytes of names lie outside for the tokenizer too, unless one of them starts a string. -/
theorem restRegions_append (ht : ∀ u c v, t = u ++ c :: v → Plain c (v ++ r)) :
    restRegions w (t ++ r) = .replicate t.length .outside ++ X ↔
      ¬opensString r w t ∧ restRegions (wordAfter w t) r = X := by
  induction t generalizing w with
  | nil => simp [opensString, wordAfter]
  | cons c t ih =>
    have hc : Plain c (t ++ r) := ht [] c t rfl
    have ih := @ih (nextOpen w c) fun u d v h ↦ ht (c :: u) d v (by rw [h]; rfl)
    by_cases hstring : w = false ∧ startsString c (t ++ r)
    · obtain ⟨rfl, hstring⟩ := hstring
      obtain ⟨k, Y, hk, heq⟩ := freeRegions_string hstring
      have hne : k ≠ .outside := by rcases hk with rfl | rfl <;> exact Region.noConfusion
      have hopens : opensString r false (c :: t) := by simp [opensString, hstring]
      rw [List.cons_append, restRegions_false, heq]
      exact iff_of_false (fun h ↦ hne (List.cons.inj h).1) fun h ↦ h.1 hopens
    · have hplain : restRegions w (c :: (t ++ r)) =
          .outside :: restRegions (nextOpen w c) (t ++ r) :=
        restRegions_plain hc fun hw h ↦ hstring ⟨hw, h⟩
      have hopens : opensString r w (c :: t) = opensString r (nextOpen w c) t := by
        cases w <;> simp_all [opensString]
      rw [List.cons_append, hplain, hopens, wordAfter, List.foldl_cons]
      exact Iff.trans ⟨fun h ↦ (List.cons.inj h).2, congrArg _⟩ ih

end Bytes

end PdoDuckdb.Transaction
