import PdoDuckdb.Sql.NativeRescan
import PdoDuckdb.Texts.Words

namespace PdoDuckdb.Sql

open Byte Library Library.Scanning

/-- What one of the driver's bind functions has been given for a slot. -/
inductive Bound
  | null
  | boolean (value : Bool)
  | integer (value : ℤ)
  | bytes (value : List Byte) (blob : Bool)
deriving DecidableEq, Repr

/-- The binding `pdo_duckdb_stmt_bind_null`, `pdo_duckdb_stmt_bind_integer` or
`pdo_duckdb_stmt_bind_bytes` stores. -/
def Bound.binding : Bound → Binding
  | null => ⟨some (ascii "NULL"), false, false⟩
  | boolean value => ⟨some (ascii (if value then "TRUE" else "FALSE")), false, false⟩
  | integer value => ⟨some (ascii "CAST(" ++ signedDecimal value ++ ascii " AS BIGINT)"), false, false⟩
  | bytes value blob => ⟨some value, true, blob⟩

/-- The slots as `pdo_duckdb_sql_expand` takes them. -/
def bindings (bound : List (Option Bound)) : List Binding := bound.map fun b ↦ (b.map Bound.binding).getD {}

/-- What a rendering writes in a placeholder's place, the blanks around it left out. -/
def Bound.text : Bound → List Byte
  | bytes value blob => quoteBytes value blob
  | b => (b.binding.value).getD []

def word (s : String) : Lexeme Byte Piece := ⟨.identifier, ascii s⟩

def sign (c : Byte) : Lexeme Byte Piece := ⟨.other, [c]⟩

def blank : Lexeme Byte Piece := ⟨.blank, [space]⟩

def period : Byte := 0x2e

def escaped (s : List Byte) : List Byte := s.flatMap fun c ↦ if c = quote then [quote, quote] else [c]

def string (s : List Byte) : Lexeme Byte Piece := ⟨.quoted quote, quote :: escaped s ++ [quote]⟩

def qualifier : List (Lexeme Byte Piece) := [word "system", sign period, word "main", sign period]

def call (name : String) (argument : List (Lexeme Byte Piece)) : List (Lexeme Byte Piece) :=
  qualifier ++ word name :: sign leftParen :: (argument ++ [sign rightParen])

def fromHex (s : List Byte) : List (Lexeme Byte Piece) := call "from_hex" [string (s.flatMap hexByte)]

def ending : List (Lexeme Byte Piece) := [blank, word "AS", blank, word "BIGINT", sign rightParen]

def Bound.pieces : Bound → List (Lexeme Byte Piece)
  | null => [word "NULL"]
  | boolean value => [word (if value then "TRUE" else "FALSE")]
  | integer value => word "CAST" :: sign leftParen :: ((signedDecimal value).map sign ++ ending)
  | bytes value blob =>
    if blob then fromHex value else if 0 ∈ value then call "decode" (fromHex value) else [string value]

section Lexing

variable {v2 : Bool} {c : Byte} {s t : List Byte} {ls : List (Lexeme Byte Piece)}

/-- Pieces that stand as they are behind any byte. -/
def Stands (v2 : Bool) (ls : List (Lexeme Byte Piece)) : Prop := ∀ before, (planner v2).Lexes before ls

theorem Stands.cons {l : Lexeme Byte Piece} (hne : l.text ≠ [])
    (hturn : ∀ before, turn v2 before (l.text ++ source ls) = (l.kind, l.text.length))
    (hls : ∀ before, (planner v2).Lexes (after before l.text) ls) : Stands v2 (l :: ls) :=
  fun before ↦ .cons hne (hturn before) (hls before)

theorem stands_nil : Stands v2 [] := Scanner.Lexes.nil

theorem stands_blank (hls : (planner v2).Lexes (some space) ls) : Stands v2 (blank :: ls) := by
  apply Stands.cons (List.cons_ne_nil _ _) _ fun _ ↦ hls
  intro before
  have hblank := triviaStep_blank (c := space) (by decide) (source ls)
  rw [blank, List.singleton_append, turn, hblank]
  rfl

def isSign (c : Byte) : Bool := isDigit c || c == leftParen || c == rightParen || c == period

theorem stands_sign (hc : isSign c) (hls : Stands v2 ls) : Stands v2 (sign c :: ls) := by
  apply Stands.cons (List.cons_ne_nil _ _) _ fun _ ↦ hls _
  intro before
  have hclass : ∀ c : Byte, isSign c → (¬isHigh c ∧ isBlank c = false ∧ c ≠ minus ∧ c ≠ slash) ∧
      ¬identifierStart c ∧ ¬(c = quote ∨ identifierQuote true c) ∧ c ≠ semicolon ∧ c ≠ dollar ∧
      c ≠ colon ∧ c ≠ question := forall_byte (by decide)
  obtain ⟨⟨hhigh, hblank, hminus, hslash⟩, hstart, hquote, hsemicolon, hdollar, hcolon, hquestion⟩ := hclass c hc
  have hquote' : ¬(c = quote ∨ identifierQuote v2 c) := fun h ↦ hquote (h.imp_right identifierQuote_true)
  rw [sign, List.singleton_append, turn, triviaStep_plain hhigh hblank hminus hslash]
  exact tokenTurn_other hstart hquote' hsemicolon hdollar hcolon hquestion

theorem stands_minus (hhead : (source ls).head? ≠ some minus) (hls : Stands v2 ls) :
    Stands v2 (sign minus :: ls) := by
  apply Stands.cons (List.cons_ne_nil _ _) _ fun _ ↦ hls _
  intro before
  have hnone : triviaStep (minus :: source ls) = none :=
    triviaStep_eq_none.mpr ⟨spaceLength_of_not_high (by decide) _, rfl, fun h ↦ hhead h.2,
      fun h ↦ absurd h.1 (by decide)⟩
  rw [sign, List.singleton_append, turn, hnone]
  exact tokenTurn_operator (.inl rfl) _

/-- A word of at least two bytes, so no `E` before a quote. -/
def isWord : List Byte → Bool
  | c :: d :: t => isLetter c && identifierContinue d && t.all identifierContinue
  | _ => false

theorem stands_word {w : String} (hw : isWord (ascii w))
    (hhead : (source ls).head?.any identifierContinue = false) (hls : Stands v2 ls) : Stands v2 (word w :: ls) := by
  rw [word]
  generalize ascii w = text at hw
  match text, hw with
  | c :: d :: t, hw =>
    obtain ⟨⟨hc, hd⟩, ht⟩ : (isLetter c ∧ identifierContinue d) ∧ ∀ b ∈ t, identifierContinue b := by
      simpa [isWord] using hw
    apply Stands.cons (List.cons_ne_nil _ _) _ fun _ ↦ hls _
    intro before
    have hclass : ∀ c : Byte, isLetter c →
        (¬isHigh c ∧ isBlank c = false ∧ c ≠ minus ∧ c ≠ slash) ∧ identifierStart c := forall_byte (by decide)
    have hquote : ∀ c : Byte, identifierContinue c → c ≠ quote := forall_byte (by decide)
    obtain ⟨⟨hhigh, hblank, hminus, hslash⟩, hstart⟩ := hclass c hc
    have hescape : ¬(isEscapeMark c ∧ (d :: t ++ source ls).head? = some quote) :=
      fun h ↦ hquote d hd (Option.some.inj h.2)
    have hlen : ((d :: t ++ source ls).takeWhile identifierContinue).length = (d :: t).length :=
      length_takeWhile_append.mpr ⟨List.forall_mem_cons.mpr ⟨hd, ht⟩, by simp [hhead]⟩
    rw [List.cons_append, turn, triviaStep_plain hhigh hblank hminus hslash]
    dsimp only
    rw [tokenTurn_letter hstart, if_neg hescape, hlen]
    rfl

theorem quotedLength_escaped (hs : s.head? ≠ some quote) :
    quotedLength quote false (escaped t ++ quote :: s) = (escaped t).length + 1 := by
  induction t with
  | nil =>
    cases s with
    | nil => rfl
    | cons d s =>
      have hd : (d == quote) = false := by simpa using hs
      simp [escaped, quotedLength, hd]
  | cons c t ih =>
    have hcons : escaped (c :: t) = (if c = quote then [quote, quote] else [c]) ++ escaped t := rfl
    rw [hcons]
    by_cases hc : c = quote
    · simp only [if_pos hc, List.cons_append, List.nil_append, quotedLength, List.length_cons, ih]
      simp
    · obtain ⟨d, u, hu⟩ := List.exists_cons_of_ne_nil (l := escaped t ++ quote :: s) (by simp)
      have hc' : (c == quote) = false := by simpa using hc
      simp only [if_neg hc, List.cons_append, List.nil_append, List.length_cons]
      rw [← ih, hu]
      simp [quotedLength, hc']

theorem stands_string (hhead : (source ls).head?.any (· == quote) = false) (hls : Stands v2 ls) :
    Stands v2 (string t :: ls) := by
  apply Stands.cons (List.cons_ne_nil _ _) _ fun _ ↦ hls _
  intro before
  have hnone (s : List Byte) : triviaStep (quote :: s) = none :=
    triviaStep_plain (by decide) (by decide) (by decide) (by decide) s
  have hend : (source ls).head? ≠ some quote := fun h ↦ by simp [h] at hhead
  have hlen := quotedLength_escaped (t := t) hend
  simp only [string, List.cons_append, List.append_assoc, List.nil_append, turn, hnone]
  rw [tokenTurn_quoted (.inl rfl), skipString, List.tail_cons, hlen]
  simp

theorem stands_call {name : String} (hname : isWord (ascii name)) {argument : List (Lexeme Byte Piece)}
    (hls : Stands v2 (argument ++ sign rightParen :: ls)) : Stands v2 (call name argument ++ ls) := by
  have hname := stands_word hname rfl (stands_sign (c := leftParen) rfl hls)
  have hmain := stands_word (w := "main") rfl rfl (stands_sign (c := period) rfl hname)
  have hsystem := stands_word (w := "system") rfl rfl (stands_sign (c := period) rfl hmain)
  simpa [call, qualifier] using hsystem

theorem stands_fromHex (hls : Stands v2 ls) : Stands v2 (fromHex s ++ ls) :=
  stands_call rfl (stands_string rfl (stands_sign (c := rightParen) rfl hls))

theorem stands_digits (hs : ∀ c ∈ s, isDigit c) (hls : Stands v2 ls) : Stands v2 (s.map sign ++ ls) := by
  induction s with
  | nil => exact hls
  | cons c s ih =>
    obtain ⟨hc, hs⟩ := List.forall_mem_cons.mp hs
    exact stands_sign (by simp [isSign, hc]) (ih hs)

theorem stands_number (n : ℤ) (hls : Stands v2 ls) : Stands v2 ((signedDecimal n).map sign ++ ls) := by
  have hdigits : ∀ c ∈ decimal n.natAbs, isDigit c := fun c ↦ isDigit_of_mem_decimal
  rw [Texts.signedDecimal_eq]
  split_ifs
  · apply stands_minus _ (stands_digits hdigits hls)
    obtain ⟨c, t, ht⟩ := List.exists_cons_of_ne_nil (decimal_ne_nil n.natAbs)
    rw [ht] at hdigits ⊢
    have hclass : ∀ c : Byte, isDigit c → c ≠ minus := forall_byte (by decide)
    exact fun h ↦ hclass c (hdigits c List.mem_cons_self) (Option.some.inj h)
  · exact stands_digits hdigits hls

/-- A literal is scanned alike behind every byte, and before all that goes on none of its pieces. -/
theorem stands_pieces (b : Bound) (hword : (source ls).head?.any identifierContinue = false)
    (hquote : (source ls).head?.any (· == quote) = false) (hls : Stands v2 ls) : Stands v2 (b.pieces ++ ls) := by
  cases b with
  | null => exact stands_word rfl hword hls
  | boolean value => cases value <;> exact stands_word rfl hword hls
  | integer value =>
    have hclose := stands_sign (c := rightParen) rfl hls
    have hbigint := stands_word (w := "BIGINT") rfl rfl hclose
    have has := stands_word (w := "AS") rfl rfl (stands_blank (hbigint _))
    have hending := stands_blank (has _)
    have hnumber := stands_number value hending
    rw [Bound.pieces, List.cons_append, List.cons_append, List.append_assoc]
    exact stands_word (w := "CAST") rfl rfl (stands_sign (c := leftParen) rfl hnumber)
  | bytes value blob =>
    simp only [Bound.pieces]
    split_ifs
    · exact stands_fromHex hls
    · exact stands_call rfl (stands_fromHex (stands_sign (c := rightParen) rfl hls))
    · exact stands_string hquote hls

theorem escaped_eq (hs : ∀ c ∈ s, c ≠ quote) : escaped s = s := by
  induction s with
  | nil => rfl
  | cons c s ih =>
    obtain ⟨hc, hs⟩ := List.forall_mem_cons.mp hs
    rw [escaped, List.flatMap_cons, if_neg hc]
    exact congrArg (c :: ·) (ih hs)

theorem hexDigit_ne_quote {n : ℕ} (hn : n < 16) : hexDigit n ≠ quote := by
  have hclass : ∀ n < 16, hexDigit n ≠ quote := by decide
  exact hclass n hn

theorem escaped_hexBytes (s : List Byte) : escaped (s.flatMap hexByte) = s.flatMap hexByte := by
  apply escaped_eq
  intro c hc
  obtain ⟨b, -, hb⟩ := List.mem_flatMap.mp hc
  have hlt := b.toNat_lt
  rcases List.mem_pair.mp hb with rfl | rfl
  · exact hexDigit_ne_quote (by omega)
  · exact hexDigit_ne_quote (Nat.mod_lt _ (by decide))

theorem source_map_sign (s : List Byte) : source (s.map sign) = s := by
  induction s with
  | nil => rfl
  | cons c s ih => rw [List.map_cons, source_cons, ih]; rfl

theorem source_fromHex (s : List Byte) :
    source (fromHex s) = ascii "system.main.from_hex('" ++ s.flatMap hexByte ++ ascii "')" := by
  simp only [fromHex, call, source_append, source_cons, source_nil, string, escaped_hexBytes, List.append_assoc]
  rfl

theorem source_pieces (b : Bound) : source b.pieces = b.text := by
  cases b with
  | null => rfl
  | boolean value => cases value <;> rfl
  | integer value =>
    simp only [Bound.pieces, source_cons, source_append, source_map_sign]
    rfl
  | bytes value blob =>
    simp only [Bound.pieces, Bound.text, quoteBytes]
    cases blob with
    | true => exact source_fromHex value
    | false =>
      by_cases hzero : 0 ∈ value
      · rw [if_neg Bool.false_ne_true, if_pos hzero, if_pos (.inr hzero)]
        simp only [call, source_append, source_cons, source_fromHex, List.append_assoc]
        rfl
      · rw [if_neg Bool.false_ne_true, if_neg hzero, if_neg (by simpa using hzero)]
        exact List.append_nil _

theorem scan_text (v2 : Bool) (b : Bound) : (planner v2).scan b.text = b.pieces := by
  have hstands := stands_pieces b rfl rfl (@stands_nil v2) none
  rw [List.append_nil] at hstands
  exact (planner v2).scan_eq_iff.mpr ⟨hstands, source_pieces b⟩

end Lexing

section Reading

variable {D : Lexeme Byte Piece → Prop} {s : List Byte} {ls : List (Lexeme Byte Piece)}

def readString : Reader (Lexeme Byte Piece) (List Byte)
  | l :: ls =>
    if l.kind = .quoted quote then some (Plan.unquoted quote l.text.tail.dropLast, ls) else none
  | [] => none

def readArgument {β : Type} (p : Reader (Lexeme Byte Piece) β) : Reader (Lexeme Byte Piece) β :=
  (Reader.symbol (sign leftParen)).andThen fun _ ↦ p.andThen fun b ↦
    (Reader.symbol (sign rightParen)).map fun _ ↦ b

def unhex : List Byte → List Byte
  | c :: d :: s => UInt8.ofNat (16 * Texts.hexValue c + Texts.hexValue d) :: unhex s
  | _ => []

def readFromHex : Reader (Lexeme Byte Piece) (List Byte) :=
  (Reader.symbol (word "from_hex")).andThen fun _ ↦ (readArgument readString).map unhex

def readInteger : Reader (Lexeme Byte Piece) Bound :=
  (Reader.symbol (sign leftParen)).andThen fun _ ↦ (Reader.span (· ≠ blank)).andThen fun digits ↦
    match Texts.readInteger.whole (source digits) with
    | some value => (Reader.literal ending).map fun _ ↦ .integer value
    | none => fun _ ↦ none

/-- What a function of `system.main` makes of its argument. -/
def readCall : Reader (Lexeme Byte Piece) Bound :=
  (Reader.literal qualifier.tail).andThen fun _ ↦ Reader.branch (word "decode")
    ((readArgument ((Reader.literal qualifier).andThen fun _ ↦ readFromHex)).map fun s ↦ .bytes s false)
    (readFromHex.map fun s ↦ .bytes s true)

def readBound : Reader (Lexeme Byte Piece) Bound :=
  Reader.branch (word "NULL") (Reader.result .null) <|
    Reader.branch (word "TRUE") (Reader.result (.boolean true)) <|
      Reader.branch (word "FALSE") (Reader.result (.boolean false)) <|
        Reader.branch (word "CAST") readInteger <|
          Reader.branch (word "system") readCall <|
            readString.map fun s ↦ .bytes s false

theorem unquoted_escaped (s : List Byte) : Plan.unquoted quote (escaped s) = s := by
  induction s with
  | nil => rfl
  | cons c s ih =>
    have hcons : escaped (c :: s) = (if c = quote then [quote, quote] else [c]) ++ escaped s := rfl
    rw [hcons]
    by_cases hc : c = quote
    · rw [if_pos hc, hc]
      exact (if_pos ⟨rfl, rfl⟩).trans (congrArg (quote :: ·) ih)
    · rw [if_neg hc]
      cases hs : escaped s with
      | nil =>
        rw [hs] at ih
        rw [← ih]
        rfl
      | cons d t =>
        rw [hs] at ih
        exact (if_neg fun h ↦ hc h.1).trans (congrArg (c :: ·) ih)

theorem unhex_hexBytes (s : List Byte) : unhex (s.flatMap hexByte) = s := by
  induction s with
  | nil => rfl
  | cons c s ih =>
    have hlt := c.toNat_lt
    have hbyte : 16 * Texts.hexValue (hexDigit (c.toNat / 16)) + Texts.hexValue (hexDigit (c.toNat % 16)) =
        c.toNat := by
      rw [Texts.hexValue_hexDigit (by omega), Texts.hexValue_hexDigit (Nat.mod_lt _ (by decide)), Nat.div_add_mod]
    change UInt8.ofNat _ :: unhex (s.flatMap hexByte) = c :: s
    rw [hbyte, UInt8.ofNat_toNat, ih]

theorem reads_string (s : List Byte) : Reads D readString [string s] s := by
  intro r _
  have htext : (string s).text.tail.dropLast = escaped s := by simp [string]
  have hkind : (string s).kind = .quoted quote := rfl
  rw [List.singleton_append, readString, if_pos hkind, htext, unquoted_escaped]

theorem reads_argument {β : Type} {p : Reader (Lexeme Byte Piece) β} {b : β} (hp : Reads (fun _ ↦ True) p ls b) :
    Reads D (readArgument p) (sign leftParen :: (ls ++ [sign rightParen])) b :=
  (Reads.symbol _).andThen_any (hp.andThen_any ((Reads.symbol _).map fun _ ↦ b))

theorem reads_fromHex (s : List Byte) :
    Reads D readFromHex (word "from_hex" :: sign leftParen :: ([string (s.flatMap hexByte)] ++ [sign rightParen])) s := by
  have hread := (reads_argument (D := D) (reads_string (s.flatMap hexByte))).map unhex
  rw [unhex_hexBytes] at hread
  exact (Reads.symbol _).andThen_any hread

theorem reads_integer (n : ℤ) :
    Reads D readInteger (sign leftParen :: ((signedDecimal n).map sign ++ ending)) (.integer n) := by
  apply (Reads.symbol _).andThen_any
  have hdigits : ∀ l ∈ (signedDecimal n).map sign, decide (l ≠ blank) = true := by
    intro l hl
    obtain ⟨c, -, rfl⟩ := List.mem_map.mp hl
    simp [sign, blank]
  apply (Reads.span hdigits).andThen
  · rw [source_map_sign, (Texts.reads_signedDecimal n).whole]
    exact (Reads.literal _).map _
  · rintro r - l hl
    obtain rfl := Option.some.inj hl
    simp

/-- The pieces of a literal stand for what was bound, whatever comes after them. -/
theorem reads_pieces (b : Bound) : Reads (fun _ ↦ True) readBound b.pieces b := by
  have hskip {a l : Lexeme Byte Piece} {ls : List (Lexeme Byte Piece)} (h : l ≠ a) :
      ∀ r, Delimited.Ends (fun _ ↦ True) r → Delimited.Ends (· ≠ a) (l :: ls ++ r) := by
    rintro r - c hc
    obtain rfl := Option.some.inj hc
    exact h
  have hsystem {ls : List (Lexeme Byte Piece)} {s : List Byte} {blob : Bool}
      (h : Reads (fun _ ↦ True) readCall ls (.bytes s blob)) :
      Reads (fun _ ↦ True) readBound (word "system" :: ls) (.bytes s blob) :=
    .branch_skipped (.branch_skipped (.branch_skipped (.branch_skipped (.branch_taken h)
      (hskip (by decide))) (hskip (by decide))) (hskip (by decide))) (hskip (by decide))
  cases b with
  | null => exact .branch_taken (.result _)
  | boolean value =>
    cases value with
    | true => exact .branch_skipped (.branch_taken (.result _)) (hskip (by decide))
    | false =>
      exact .branch_skipped (.branch_skipped (.branch_taken (.result _)) (hskip (by decide))) (hskip (by decide))
  | integer value =>
    exact .branch_skipped (.branch_skipped (.branch_skipped (.branch_taken (reads_integer value))
      (hskip (by decide))) (hskip (by decide))) (hskip (by decide))
  | bytes value blob =>
    simp only [Bound.pieces]
    split_ifs with hblob hzero
    · subst hblob
      apply hsystem
      apply (Reads.literal qualifier.tail).andThen_any
      exact .branch_skipped ((reads_fromHex value).map _) (hskip (by decide))
    · obtain rfl : blob = false := by simpa using hblob
      apply hsystem
      apply (Reads.literal qualifier.tail).andThen_any
      apply Reads.branch_taken
      have hhex := (Reads.literal qualifier).andThen_any (f := fun _ ↦ readFromHex)
        (reads_fromHex (D := fun _ ↦ True) value)
      exact (reads_argument hhex).map fun s ↦ Bound.bytes s false
    · obtain rfl : blob = false := by simpa using hblob
      have hne (w : String) : string value ≠ word w := by simp [string, word]
      exact .branch_skipped (.branch_skipped (.branch_skipped (.branch_skipped (.branch_skipped
        ((reads_string value).map _) (hskip (hne _))) (hskip (hne _))) (hskip (hne _))) (hskip (hne _)))
        (hskip (hne _))

/-- The planner scans a literal as pieces that stand for what was bound. -/
theorem readBound_scan (v2 : Bool) (b : Bound) : readBound.whole ((planner v2).scan b.text) = some b := by
  rw [scan_text]
  exact (reads_pieces b).whole

end Reading

end PdoDuckdb.Sql
