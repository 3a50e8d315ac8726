import PdoDuckdb.Bytes

namespace PdoDuckdb.Driver

open Byte

section Stripping

/-- The loop of `pdo_duckdb_strip_table_alias` over what is left of the name from byte `i`. -/
def aliasCut (i : ℕ) (inQuote : Bool) (cut : ℕ) : List Byte → ℕ
  | c :: d :: e :: f :: s =>
    if c = doubleQuote then aliasCut (i + 1) (!inQuote) cut (d :: e :: f :: s)
    else if !inQuote ∧ c = space ∧ d = 0x41 ∧ e = 0x53 ∧ f = space then
      aliasCut (i + 1) inQuote i (d :: e :: f :: s)
    else aliasCut (i + 1) inQuote cut (d :: e :: f :: s)
  | _ => cut

/-- `pdo_duckdb_strip_table_alias`. -/
def stripTableAlias (s : List Byte) : List Byte := s.take (aliasCut 0 false s.length s)

end Stripping

section Names

/-- An identifier: in quotes, with those inside doubled, or bare. -/
inductive Identifier
  | quoted (content : List Byte)
  | bare (s : List Byte) (plain : ∀ c ∈ s, ¬ isBlank c ∧ c ≠ doubleQuote)

def doubled (content : List Byte) : List Byte :=
  content.flatMap fun c ↦ if c = doubleQuote then [doubleQuote, doubleQuote] else [c]

def Identifier.text : Identifier → List Byte
  | .quoted content => doubleQuote :: (doubled content ++ [doubleQuote])
  | .bare s _ => s

def qualifiedName (names : List Identifier) : List Byte := [(0x2e : Byte)].intercalate (names.map Identifier.text)

def quoteAfter (inQuote : Bool) (s : List Byte) : Bool :=
  s.foldl (fun q c ↦ if c = doubleQuote then !q else q) inQuote

def Spaceless : Bool → List Byte → Prop
  | _, [] => True
  | inQuote, c :: s =>
    if c = doubleQuote then Spaceless (!inQuote) s else (inQuote = false → c ≠ space) ∧ Spaceless inQuote s

def Closed (s : List Byte) : Prop := Spaceless false s ∧ quoteAfter false s = false

variable {s t : List Byte} {q : Bool} {i cut : ℕ}

theorem quoteAfter_append (q : Bool) (s t : List Byte) : quoteAfter q (s ++ t) = quoteAfter (quoteAfter q s) t :=
  List.foldl_append

theorem spaceless_append : Spaceless q (s ++ t) ↔ Spaceless q s ∧ Spaceless (quoteAfter q s) t := by
  induction s generalizing q with
  | nil => exact ⟨fun h ↦ ⟨trivial, h⟩, fun h ↦ h.2⟩
  | cons c s ih =>
    by_cases hc : c = doubleQuote
    · have hq : quoteAfter q (c :: s) = quoteAfter (!q) s := by
        unfold quoteAfter
        rw [List.foldl_cons, if_pos hc]
      rw [List.cons_append, Spaceless, if_pos hc, Spaceless, if_pos hc, hq, ih]
    · have hq : quoteAfter q (c :: s) = quoteAfter q s := by
        unfold quoteAfter
        rw [List.foldl_cons, if_neg hc]
      rw [List.cons_append, Spaceless, if_neg hc, Spaceless, if_neg hc, hq, ih, and_assoc]

theorem Closed.append (hs : Closed s) (ht : Closed t) : Closed (s ++ t) := by
  obtain ⟨hspace, hquote⟩ := hs
  constructor
  · rw [spaceless_append, hquote]
    exact ⟨hspace, ht.1⟩
  · rw [quoteAfter_append, hquote]
    exact ht.2

theorem doubled_inside (content : List Byte) : Spaceless true (doubled content) ∧ quoteAfter true (doubled content) = true := by
  induction content with
  | nil => exact ⟨trivial, rfl⟩
  | cons c content ih =>
    have hcons : Spaceless true (if c = doubleQuote then [doubleQuote, doubleQuote] else [c]) ∧
        quoteAfter true (if c = doubleQuote then [doubleQuote, doubleQuote] else [c]) = true := by
      split_ifs with hc
      · exact ⟨by simp [Spaceless], rfl⟩
      · exact ⟨by simp [Spaceless, hc], by simp [quoteAfter, hc]⟩
    unfold doubled
    rw [List.flatMap_cons, spaceless_append, quoteAfter_append, hcons.2]
    exact ⟨⟨hcons.1, ih.1⟩, ih.2⟩

theorem closed_bare (hs : ∀ c ∈ s, ¬ isBlank c ∧ c ≠ doubleQuote) : Closed s := by
  induction s with
  | nil => exact ⟨trivial, rfl⟩
  | cons c s ih =>
    obtain ⟨hblank, hquote⟩ := hs c List.mem_cons_self
    obtain ⟨hspace, hafter⟩ := ih fun d hd ↦ hs d (List.mem_cons_of_mem _ hd)
    constructor
    · rw [Spaceless, if_neg hquote]
      refine ⟨fun _ hc ↦ hblank ?_, hspace⟩
      rw [hc]
      rfl
    · unfold quoteAfter at hafter ⊢
      rwa [List.foldl_cons, if_neg hquote]

theorem closed_text (a : Identifier) : Closed a.text := by
  cases a with
  | bare s plain => exact closed_bare plain
  | quoted content =>
    obtain ⟨hspace, hafter⟩ := doubled_inside content
    have hall : Spaceless true (doubled content ++ [doubleQuote]) ∧
        quoteAfter true (doubled content ++ [doubleQuote]) = false := by
      rw [spaceless_append, quoteAfter_append, hafter]
      exact ⟨⟨hspace, by simp [Spaceless]⟩, rfl⟩
    exact ⟨hall.1, hall.2⟩

theorem closed_qualifiedName (names : List Identifier) : Closed (qualifiedName names) := by
  have hdot : Closed [(0x2e : Byte)] := ⟨⟨fun _ ↦ by decide, trivial⟩, rfl⟩
  unfold qualifiedName
  induction names with
  | nil => exact ⟨trivial, rfl⟩
  | cons a names ih =>
    cases names with
    | nil => simpa using closed_text a
    | cons b names =>
      rw [List.map_cons, List.map_cons, List.intercalate_cons_cons]
      exact ((closed_text a).append hdot).append ih

end Names

section Cuts

variable {c : Byte} {s t : List Byte} {q : Bool} {i cut : ℕ}

theorem aliasCut_short (h : s.length < 4) : aliasCut i q cut s = cut := by
  match s with
  | [] | [_] | [_, _] | [_, _, _] => rfl
  | _ :: _ :: _ :: _ :: _ => exact absurd h (by simp)

theorem aliasCut_quote (h : 3 ≤ s.length) :
    aliasCut i q cut (doubleQuote :: s) = aliasCut (i + 1) (!q) cut s := by
  match s, h with
  | _ :: _ :: _ :: _, _ => exact if_pos rfl

/-- A byte that is neither a quote nor the start of a separator. -/
theorem aliasCut_other (h : 3 ≤ s.length) (hc : c ≠ doubleQuote)
    (hsep : q = false → c = space → s.take 3 ≠ [0x41, 0x53, space]) :
    aliasCut i q cut (c :: s) = aliasCut (i + 1) q cut s := by
  match s, h with
  | d :: e :: f :: s, _ =>
    have hno : ¬ (!q ∧ c = space ∧ d = 0x41 ∧ e = 0x53 ∧ f = space) := by
      rintro ⟨hq, rfl, rfl, rfl, rfl⟩
      exact hsep (by simpa using hq) rfl rfl
    exact (if_neg hc).trans (if_neg hno)

theorem aliasCut_separator :
    aliasCut i false cut (ascii " AS " ++ s) = aliasCut (i + 1) false i (ascii "AS " ++ s) := rfl

/-- The scan goes on after a text without spaces, if enough is left. -/
theorem aliasCut_append (hs : Spaceless q s) (ht : 3 ≤ t.length) :
    aliasCut i q cut (s ++ t) = aliasCut (i + s.length) (quoteAfter q s) cut t := by
  induction s generalizing i q with
  | nil => rfl
  | cons c s ih =>
    have hlen : 3 ≤ (s ++ t).length := by
      rw [List.length_append]
      omega
    have hlast : i + (c :: s).length = i + 1 + s.length := by
      rw [List.length_cons]
      omega
    rw [List.cons_append, hlast]
    by_cases hc : c = doubleQuote
    · rw [Spaceless, if_pos hc] at hs
      rw [hc, aliasCut_quote hlen, ih hs]
      rfl
    · rw [Spaceless, if_neg hc] at hs
      have hq : quoteAfter q (c :: s) = quoteAfter q s := by
        unfold quoteAfter
        rw [List.foldl_cons, if_neg hc]
      rw [aliasCut_other hlen hc fun h h' ↦ absurd h' (hs.1 h), ih hs.2, hq]

/-- Where what follows is not cut, nor is a byte more. -/
theorem aliasCut_cons (hsep : q = false → c = space → s.take 3 ≠ [0x41, 0x53, space])
    (h : aliasCut (i + 1) (if c = doubleQuote then !q else q) cut s = cut) : aliasCut i q cut (c :: s) = cut := by
  by_cases hlen : 3 ≤ s.length
  · by_cases hc : c = doubleQuote
    · rw [if_pos hc] at h
      rw [hc, aliasCut_quote hlen, h]
    · rw [if_neg hc] at h
      rw [aliasCut_other hlen hc hsep, h]
  · apply aliasCut_short
    rw [List.length_cons]
    omega

/-- A text without spaces is not cut. -/
theorem aliasCut_spaceless (hs : Spaceless q s) : aliasCut i q cut s = cut := by
  induction s generalizing i q with
  | nil => rfl
  | cons c s ih =>
    by_cases hc : c = doubleQuote
    · rw [Spaceless, if_pos hc] at hs
      refine aliasCut_cons (fun _ h ↦ absurd (hc.symm.trans h) (by decide)) ?_
      rw [if_pos hc]
      exact ih hs
    · rw [Spaceless, if_neg hc] at hs
      refine aliasCut_cons (fun h h' ↦ absurd h' (hs.1 h)) ?_
      rw [if_neg hc]
      exact ih hs.2

/-- The text of an identifier is not the end of another separator. -/
theorem take_text_ne (a : Identifier) : a.text.take 3 ≠ [0x41, 0x53, space] := by
  intro h
  cases a with
  | quoted content => exact absurd (List.cons.inj h).1 (by decide)
  | bare s plain =>
    have hmem : space ∈ s.take 3 := by
      change s.take 3 = _ at h
      rw [h]
      exact List.mem_of_getLast? rfl
    exact (plain space (List.mem_of_mem_take hmem)).1 rfl

/-- What is left after a separator has no other. -/
theorem aliasCut_alias (a : Identifier) : aliasCut i false cut (ascii "AS " ++ a.text) = cut := by
  apply aliasCut_cons (fun _ h ↦ absurd h (by decide))
  apply aliasCut_cons (fun _ h ↦ absurd h (by decide))
  apply aliasCut_cons (fun _ _ ↦ take_text_ne a)
  exact aliasCut_spaceless (closed_text a).1

end Cuts

/-- An alias after a table name is taken off, and a name without one stays as it is. -/
theorem stripTableAlias_qualifiedName (names : List Identifier) (a : Identifier) :
    stripTableAlias (qualifiedName names) = qualifiedName names ∧
      stripTableAlias (qualifiedName names ++ (ascii " AS " ++ a.text)) = qualifiedName names := by
  obtain ⟨hspace, hclosed⟩ := closed_qualifiedName names
  unfold stripTableAlias
  constructor
  · rw [aliasCut_spaceless hspace, List.take_length]
  · rw [aliasCut_append hspace (by simp [ascii]), hclosed, aliasCut_separator, aliasCut_alias, Nat.zero_add,
      List.take_left]

example : stripTableAlias (ascii "\"a AS \"\"b\".t AS \" AS x\"") = ascii "\"a AS \"\"b\".t" := by decide

end PdoDuckdb.Driver
