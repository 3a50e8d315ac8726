import PdoDuckdb.Library.Delimited
import PdoDuckdb.Library.Pointwise
import PdoDuckdb.Nested.Agreement

namespace PdoDuckdb.Nested

open Byte Library.Collecting Library.Delimited

section Numbers

theorem formatU128_inj {upper lower upper' lower' : UInt64}
    (h : formatU128 upper lower = formatU128 upper' lower') : upper = upper' ∧ lower = lower' := by
  have hvalue := decimal_injective h
  have hlower := lower.toNat_lt
  have hlower' := lower'.toNat_lt
  constructor
  · apply UInt64.toNat_inj.mp
    omega
  · apply UInt64.toNat_inj.mp
    omega

theorem negated_inj {upper lower upper' lower' : UInt64}
    (h : negated upper lower = negated upper' lower') : upper = upper' ∧ lower = lower' := by
  obtain ⟨hupper, hlower⟩ := Prod.mk.inj h
  rw [hlower] at hupper
  exact ⟨UInt64.not_inj.mp (UInt64.add_left_inj _ |>.mp hupper), UInt64.not_inj.mp (UInt64.add_left_inj _ |>.mp hlower)⟩

theorem minus_ne_decimal (n : ℕ) (s : List Byte) : minus :: s ≠ decimal n := by
  intro h
  have hdigit : isDigit minus := isDigit_of_mem_decimal (h ▸ List.mem_cons_self)
  exact absurd hdigit (by decide)

theorem hugeintToString_inj {upper lower upper' lower' : UInt64}
    (h : hugeintToString upper lower = hugeintToString upper' lower') :
    upper = upper' ∧ lower = lower' := by
  unfold hugeintToString at h
  split at h
  · split at h
    · exact negated_inj (Prod.ext_iff.mpr (formatU128_inj (List.cons.inj h).2))
    · exact absurd h (minus_ne_decimal _ _)
  · split at h
    · exact absurd h.symm (minus_ne_decimal _ _)
    · exact formatU128_inj h

theorem smartAppendI64_injective : Function.Injective smartAppendI64 := by
  intro m n h
  unfold smartAppendI64 at h
  split at h
  · split at h
    · have habs := decimal_injective (List.cons.inj h).2
      omega
    · exact absurd h (minus_ne_decimal _ _)
  · split at h
    · exact absurd h.symm (minus_ne_decimal _ _)
    · have hnat := decimal_injective h
      omega

end Numbers

/-- A byte that can follow the text of a value inside a container. -/
def IsDelimiter (c : Byte) : Prop := c = comma ∨ c = closeBracket ∨ c = closeBrace ∨ c = equals

section Quotes

variable {v2 : Bool} {s t : List Byte}

theorem IsDelimiter.special {c : Byte} (h : IsDelimiter c) (v2 : Bool) : varcharQuoteTable v2 c := by
  rcases h with rfl | rfl | rfl | rfl <;> rfl

theorem not_isDelimiter_quote : ¬ IsDelimiter quote := by
  unfold IsDelimiter
  decide

/-- What escapes between quotes can be taken back. -/
theorem escaped_inj {r r' : List Byte}
    (h : s.flatMap escapedByte ++ quote :: r = t.flatMap escapedByte ++ quote :: r') :
    s = t ∧ r = r' := by
  have hhead : ∀ (c : Byte) (u v : List Byte), escapedByte c ++ u ≠ quote :: v := by
    intro c u v heq
    unfold escapedByte at heq
    split at heq
    · exact absurd (List.cons.inj heq).1 (by decide)
    · next hc => exact hc (.inl (List.cons.inj heq).1)
  induction s generalizing t with
  | nil =>
    cases t with
    | nil => exact ⟨rfl, (List.cons.inj h).2⟩
    | cons d t =>
      simp only [List.flatMap_cons, List.append_assoc] at h
      exact absurd h.symm (hhead d _ _)
  | cons c s ih =>
    cases t with
    | nil =>
      simp only [List.flatMap_cons, List.append_assoc] at h
      exact absurd h (hhead c _ _)
    | cons d t =>
      simp only [List.flatMap_cons, List.append_assoc] at h
      have hcd : c = d ∧ s.flatMap escapedByte ++ quote :: r =
          t.flatMap escapedByte ++ quote :: r' := by
        unfold escapedByte at h
        split at h
        · split at h
          · exact List.cons.inj (List.cons.inj h).2
          · next hd => exact absurd (.inr (List.cons.inj h).1.symm) hd
        · next hc =>
          split at h
          · exact absurd (.inr (List.cons.inj h).1) hc
          · exact List.cons.inj h
      obtain ⟨hst, hrr⟩ := ih hcd.2
      exact ⟨by rw [hcd.1, hst], hrr⟩

theorem unquoted_plain (h : ¬ IsQuoted v2 s) : ∀ c ∈ s, ¬ varcharQuoteTable v2 c :=
  fun c hc htable ↦ h (.inr (.inr (.inr (.inr ⟨c, hc, htable⟩))))

theorem unquoted_delimiters (h : ¬ IsQuoted v2 s) : ∀ c ∈ s, ¬ IsDelimiter c :=
  fun c hc hD ↦ unquoted_plain h c hc (hD.special v2)

theorem unquoted_head (h : ¬ IsQuoted v2 s) : ∃ c ∈ s.head?, ¬ varcharQuoteTable v2 c := by
  cases s with
  | nil => exact absurd (.inl rfl) h
  | cons c s => exact ⟨c, rfl, unquoted_plain h c List.mem_cons_self⟩

theorem opens_quoteNested (v2 : Bool) (s : List Byte) : Opens IsDelimiter (quoteNested v2 s) := by
  unfold quoteNested
  split
  · exact ⟨quote, rfl, not_isDelimiter_quote⟩
  · next h =>
    obtain ⟨c, hc, htable⟩ := unquoted_head h
    exact ⟨c, hc, fun hD ↦ htable (hD.special v2)⟩

/-- A quoted text and one without quotes start differently. -/
theorem apart_mixed {α : Type} {text : α → List Byte} {a b : α} {u : List Byte}
    (ha : text a = quote :: u) (hb : ¬ IsQuoted v2 (text b)) : Apart IsDelimiter text a b := by
  obtain ⟨c, hc, htable⟩ := unquoted_head hb
  refine apart_of_head_ne (c := quote) (by rw [ha]; rfl) hc ?_
  rintro rfl
  exact htable rfl

theorem apart_quoteNested (v2 : Bool) (s t : List Byte) :
    Apart IsDelimiter (quoteNested v2) s t := by
  by_cases hs : IsQuoted v2 s
  · have htext : quoteNested v2 s = quote :: (s.flatMap escapedByte ++ [quote]) := if_pos hs
    by_cases ht : IsQuoted v2 t
    · have htext' : quoteNested v2 t = quote :: (t.flatMap escapedByte ++ [quote]) := if_pos ht
      intro r r' _ _ heq
      rw [htext, htext'] at heq
      simp only [List.cons_append, List.append_assoc] at heq
      exact escaped_inj (List.cons.inj heq).2
    · have htext' : quoteNested v2 t = t := if_neg ht
      exact apart_mixed htext (htext'.symm ▸ ht)
  · have htext : quoteNested v2 s = s := if_neg hs
    by_cases ht : IsQuoted v2 t
    · have htext' : quoteNested v2 t = quote :: (t.flatMap escapedByte ++ [quote]) := if_pos ht
      exact (apart_mixed htext' (htext.symm ▸ hs)).symm
    · have htext' : quoteNested v2 t = t := if_neg ht
      intro r r' hr hr' heq
      rw [htext, htext'] at heq
      exact eq_of_plain (unquoted_delimiters hs) (unquoted_delimiters ht) hr hr' heq

end Quotes

section Types

/-- A value that some row of some vector of the type holds. -/
def LogicalType.IsValue (lt : LogicalType) (v : Value) : Prop :=
  ∃ vec row, lt.value vec row = some v

variable {v : Value}

theorem null_or_eq {null : Bool} {x : Option Value}
    (h : (if null then some .null else x) = some v) : v = .null ∨ x = some v := by
  cases null with
  | true =>
    cases h
    exact .inl rfl
  | false => exact .inr h

theorem isValue_scalar {type : ScalarType} (h : (LogicalType.scalar type).IsValue v) :
    v = .null ∨ ∃ d, type.holds d ∧ v = .scalar type d := by
  obtain ⟨vec, row, h⟩ := h
  simp only [LogicalType.value] at h
  rcases null_or_eq h with rfl | h
  · exact .inl rfl
  · obtain ⟨d, -, h⟩ := Option.bind_eq_some_iff.mp h
    by_cases hsql : type = .sqlNull
    · rw [if_pos hsql, Option.some.injEq] at h
      exact .inl h.symm
    · rw [if_neg hsql, Option.ite_none_right_eq_some, Option.some.injEq] at h
      exact .inr ⟨d, h.1, h.2.symm⟩

theorem isValue_list {child : LogicalType} (h : (LogicalType.list child).IsValue v) :
    v = .null ∨ ∃ vs, v = .list vs ∧ ∀ w ∈ vs, child.IsValue w := by
  obtain ⟨vec, row, h⟩ := h
  simp only [LogicalType.value] at h
  rcases null_or_eq h with rfl | h
  · exact .inl rfl
  · obtain ⟨⟨e, size, items⟩, -, h⟩ := Option.bind_eq_some_iff.mp h
    simp only [Option.ite_none_right_eq_some, Option.map_eq_some_iff] at h
    obtain ⟨-, vs, hrows, rfl⟩ := h
    refine .inr ⟨vs, rfl, fun w hw ↦ ?_⟩
    obtain ⟨i, -, hi⟩ := exists_of_mem_mapM hrows hw
    exact ⟨items, _, hi⟩

theorem isValue_array {child : LogicalType} {n : ℕ} (h : (LogicalType.array child n).IsValue v) :
    v = .null ∨ ∃ vs, v = .array vs ∧ ∀ w ∈ vs, child.IsValue w := by
  obtain ⟨vec, row, h⟩ := h
  simp only [LogicalType.value] at h
  rcases null_or_eq h with rfl | h
  · exact .inl rfl
  · obtain ⟨items, -, h⟩ := Option.bind_eq_some_iff.mp h
    simp only [Option.ite_none_right_eq_some, Option.map_eq_some_iff] at h
    obtain ⟨-, vs, hrows, rfl⟩ := h
    refine .inr ⟨vs, rfl, fun w hw ↦ ?_⟩
    obtain ⟨i, -, hi⟩ := exists_of_mem_mapM hrows hw
    exact ⟨items, _, hi⟩

def IsField (f : List Byte × LogicalType) (w : List Byte × Value) : Prop :=
  w.1 = f.1 ∧ f.2.IsValue w.2

theorem isField_of_structRow {fields : List (List Byte × LogicalType)} {vec : Vector} {row i : ℕ}
    {vs : List (List Byte × Value)} (h : structRow vec row i (fieldValues fields) = some vs) :
    List.Forall₂ IsField fields vs := by
  induction fields generalizing i vs with
  | nil =>
    cases h
    exact .nil
  | cons f rest ih =>
    obtain ⟨name, child⟩ := f
    simp only [fieldValues, structRow, Option.bind_eq_some_iff, Option.map_eq_some_iff] at h
    obtain ⟨item, -, nv, ⟨v, hv, rfl⟩, vrest, hvrest, rfl⟩ := h
    exact .cons ⟨rfl, item, row, hv⟩ (ih hvrest)

theorem isValue_struct {tuple : Bool} {fields : List (List Byte × LogicalType)}
    (h : (LogicalType.struct tuple fields).IsValue v) :
    v = .null ∨ ∃ vs, v = .struct tuple vs ∧ List.Forall₂ IsField fields vs := by
  obtain ⟨vec, row, h⟩ := h
  simp only [LogicalType.value] at h
  rcases null_or_eq h with rfl | h
  · exact .inl rfl
  · obtain ⟨vs, hvs, rfl⟩ := Option.map_eq_some_iff.mp h
    exact .inr ⟨vs, rfl, isField_of_structRow hvs⟩

theorem isValue_map {key item : LogicalType} (h : (LogicalType.map key item).IsValue v) :
    v = .null ∨ ∃ es, v = .map es ∧ ∀ e ∈ es, key.IsValue e.1 ∧ item.IsValue e.2 := by
  obtain ⟨vec, row, h⟩ := h
  simp only [LogicalType.value] at h
  rcases null_or_eq h with rfl | h
  · exact .inl rfl
  · obtain ⟨⟨e, size, entries⟩, -, h⟩ := Option.bind_eq_some_iff.mp h
    simp only [Option.bind_eq_some_iff, Option.ite_none_right_eq_some,
      Option.map_eq_some_iff] at h
    obtain ⟨keys, -, items, -, -, es, hrows, rfl⟩ := h
    refine .inr ⟨es, rfl, fun kv hkv ↦ ?_⟩
    obtain ⟨i, -, hi⟩ := exists_of_mem_mapM hrows hkv
    simp only [Option.bind_eq_some_iff, Option.map_eq_some_iff] at hi
    obtain ⟨k, hk, w, hw, rfl⟩ := hi
    exact ⟨⟨keys, _, hk⟩, items, _, hw⟩

end Types

section Texts

variable {v2 : Bool} {bridge : Bridge}

/-- Every value but a UNION has a text that no delimiter starts. -/
theorem opens_nestedPdo {v : Value} (h : ∀ tag m, v ≠ .union tag m) :
    Opens IsDelimiter (nestedPdo v2 bridge true v) := by
  have hopen : ∀ c, ¬ IsDelimiter c → ∀ right texts,
      Opens IsDelimiter (enclosed c right texts) := fun c hc right texts ↦ ⟨c, rfl, hc⟩
  have hN : ¬ IsDelimiter 0x4e := by
    unfold IsDelimiter
    decide
  have hbracket : ¬ IsDelimiter openBracket := by
    unfold IsDelimiter
    decide
  have hbrace : ¬ IsDelimiter openBrace := by
    unfold IsDelimiter
    decide
  have hparen : ¬ IsDelimiter leftParen := by
    unfold IsDelimiter
    decide
  cases v with
  | null => exact ⟨0x4e, rfl, hN⟩
  | scalar type d => exact opens_quoteNested v2 _
  | list items => exact hopen _ hbracket _ _
  | array items => exact hopen _ hbracket _ _
  | struct tuple fields =>
    cases tuple with
    | true => exact hopen _ hparen _ _
    | false => exact hopen _ hbrace _ _
  | map entries => exact hopen _ hbrace _ _
  | union tag m => exact absurd rfl (h tag m)

/-- The text of a value tells which value of its type it is. -/
def Told (v2 : Bool) (bridge : Bridge) (lt : LogicalType) : Prop :=
  ∀ v w, lt.IsValue v → lt.IsValue w →
    Opens IsDelimiter (nestedPdo v2 bridge true v) ∧
      Apart IsDelimiter (nestedPdo v2 bridge true) v w

theorem Told.opens {lt : LogicalType} (h : Told v2 bridge lt) {v : Value} (hv : lt.IsValue v) :
    Opens IsDelimiter (nestedPdo v2 bridge true v) :=
  (h v v hv hv).1

theorem Told.apart {lt : LogicalType} (h : Told v2 bridge lt) {v w : Value} (hv : lt.IsValue v)
    (hw : lt.IsValue w) : Apart IsDelimiter (nestedPdo v2 bridge true) v w :=
  (h v w hv hw).2

theorem apart_refl {α : Type} (text : α → List Byte) (a : α) : Apart IsDelimiter text a a :=
  fun _ _ _ _ heq ↦ ⟨rfl, List.append_cancel_left heq⟩

/-- `NULL` and a text that starts with another letter. -/
theorem apart_null {v : Value} {c : Byte} (hc : c ∈ (nestedPdo v2 bridge true v).head?)
    (hne : c ≠ 0x4e) : Apart IsDelimiter (nestedPdo v2 bridge true) .null v :=
  apart_of_head_ne (c := 0x4e) rfl hc hne.symm

/-- No scalar has the text `NULL`: a string that spells it is quoted. -/
theorem apart_null_scalar (type : ScalarType) (d : Datum) :
    Apart IsDelimiter (nestedPdo v2 bridge true) .null (.scalar type d) := by
  have htext : nestedPdo v2 bridge true (.scalar type d) =
      quoteNested v2 (bridge.cast type d) := rfl
  by_cases hquoted : IsQuoted v2 (bridge.cast type d)
  · apply apart_null (c := quote)
    · rw [htext, quoteNested, if_pos hquoted]
      rfl
    · decide
  · intro r r' hr hr' heq
    rw [htext, quoteNested, if_neg hquoted] at heq
    have hnull : ∀ c ∈ ascii "NULL", ¬ IsDelimiter c := by
      have hascii : ascii "NULL" = [0x4e, 0x55, 0x4c, 0x4c] := rfl
      simp only [hascii, List.mem_cons, List.not_mem_nil, or_false, forall_eq_or_imp, forall_eq,
        IsDelimiter]
      decide
    obtain ⟨hword, -⟩ := eq_of_plain hnull (unquoted_delimiters hquoted) hr hr' heq
    exact absurd (.inr (.inr (.inr (.inl (hword ▸ rfl))))) hquoted

/-- A type is told when NULL and its other values are, and those from each other. -/
theorem told_of_parts {α : Type} (mk : α → Value) (P : α → Prop) {lt : LogicalType}
    (hvalue : ∀ v, lt.IsValue v → v = .null ∨ ∃ a, v = mk a ∧ P a)
    (hunion : ∀ a tag m, mk a ≠ .union tag m)
    (hnull : ∀ a, Apart IsDelimiter (nestedPdo v2 bridge true) .null (mk a))
    (h : ∀ a b, P a → P b → Apart IsDelimiter (nestedPdo v2 bridge true) (mk a) (mk b)) :
    Told v2 bridge lt := by
  intro v w hv hw
  rcases hvalue v hv with rfl | ⟨a, rfl, ha⟩
  · refine ⟨opens_nestedPdo nofun, ?_⟩
    rcases hvalue w hw with rfl | ⟨b, rfl, hb⟩
    · exact apart_refl _ _
    · exact hnull b
  · refine ⟨opens_nestedPdo (hunion a), ?_⟩
    rcases hvalue w hw with rfl | ⟨b, rfl, hb⟩
    · exact (hnull a).symm
    · exact h a b ha hb

theorem told_scalar {type : ScalarType}
    (hinj : ∀ d d', type.holds d → type.holds d' → bridge.cast type d = bridge.cast type d' → d = d') :
    Told v2 bridge (.scalar type) := by
  apply told_of_parts (Value.scalar type) fun d ↦ type.holds d
  · intro v hv
    rcases isValue_scalar hv with rfl | ⟨d, hd, rfl⟩
    · exact .inl rfl
    · exact .inr ⟨d, rfl, hd⟩
  · exact fun d ↦ nofun
  · exact apart_null_scalar type
  · intro d d' hd hd' r r' hr hr' heq
    obtain ⟨hcast, hrr⟩ := apart_quoteNested v2 _ _ r r' hr hr' heq
    exact ⟨by rw [hinj d d' hd hd' hcast], hrr⟩

/-- Texts between the same brackets give back their parts. -/
theorem enclosed_inj {α : Type} {text : α → List Byte} {left right : Byte}
    (hright : IsDelimiter right) (hne : right ≠ comma) {as bs : List α} {r r' : List Byte}
    (hopens : ∀ a ∈ as, Opens IsDelimiter (text a)) (hopens' : ∀ b ∈ bs, Opens IsDelimiter (text b))
    (h : ∀ (i : ℕ) a b, as[i]? = some a → bs[i]? = some b → Apart IsDelimiter text a b)
    (heq : enclosed left right (as.map text) ++ r = enclosed left right (bs.map text) ++ r') :
    as = bs ∧ r = r' := by
  simp only [enclosed, List.cons_append, List.append_assoc, List.nil_append] at heq
  exact joined_inj (.inl rfl) hright hne hopens hopens' h (List.cons.inj heq).2

/-- A container whose items stand between brackets, each with its quotes. -/
theorem told_items (mk : List Value → Value) {child lt : LogicalType}
    (hvalue : ∀ v, lt.IsValue v → v = .null ∨ ∃ vs, v = mk vs ∧ ∀ w ∈ vs, child.IsValue w)
    (hunion : ∀ vs tag m, mk vs ≠ .union tag m)
    (htext : ∀ vs, nestedPdo v2 bridge true (mk vs) =
      enclosed openBracket closeBracket (vs.map (nestedPdo v2 bridge true)))
    (h : Told v2 bridge child) : Told v2 bridge lt := by
  apply told_of_parts mk (fun vs ↦ ∀ w ∈ vs, child.IsValue w) hvalue hunion
  · exact fun vs ↦ apart_null (c := openBracket) (by rw [htext]; rfl) (by decide)
  · intro vs ws hvs hws r r' _ _ heq
    rw [htext, htext] at heq
    obtain ⟨hitems, hrr⟩ := enclosed_inj (.inr (.inl rfl)) (by decide)
      (fun a ha ↦ h.opens (hvs a ha)) (fun b hb ↦ h.opens (hws b hb))
      (fun i a b ha hb ↦ h.apart (hvs a (List.mem_of_getElem? ha))
        (hws b (List.mem_of_getElem? hb))) heq
    exact ⟨by rw [hitems], hrr⟩

theorem told_list {child : LogicalType} (h : Told v2 bridge child) :
    Told v2 bridge (.list child) := by
  refine told_items Value.list (fun v hv ↦ isValue_list hv) (fun vs ↦ nofun) (fun vs ↦ ?_) h
  rw [← itemTexts_eq]
  rfl

/-- The items of an ARRAY have quotes in DuckDB 2.0 only. -/
theorem told_array {child : LogicalType} (n : ℕ) (h : Told true bridge child) :
    Told true bridge (.array child n) := by
  refine told_items Value.array (fun v hv ↦ isValue_array hv) (fun vs ↦ nofun) (fun vs ↦ ?_) h
  rw [← itemTexts_eq]
  rfl

theorem told_struct (hkey : ∀ name, bridge.quoteKey name = quote :: (name ++ [quote]))
    {fields : List (List Byte × LogicalType)} (h : ∀ f ∈ fields, Told v2 bridge f.2) :
    Told v2 bridge (.struct false fields) := by
  apply told_of_parts (Value.struct false) fun vs ↦ List.Forall₂ IsField fields vs
  · exact fun v hv ↦ isValue_struct hv
  · exact fun vs ↦ nofun
  · exact fun vs ↦ apart_null (c := openBrace) rfl (by decide)
  · intro vs ws hvs hws r r' _ _ heq
    have htext : ∀ vs, nestedPdo v2 bridge true (.struct false vs) =
        enclosed openBrace closeBrace (vs.map (fieldText v2 bridge)) := by
      intro vs
      rw [← fieldTexts_eq]
      rfl
    have hopens : ∀ f, Opens IsDelimiter (fieldText v2 bridge f) := by
      intro f
      rw [fieldText, hkey]
      exact ⟨quote, rfl, not_isDelimiter_quote⟩
    have happart : ∀ (i : ℕ) a b, vs[i]? = some a → ws[i]? = some b →
        Apart IsDelimiter (fieldText v2 bridge) a b := by
      rintro i ⟨name, a⟩ ⟨name', b⟩ ha hb
      obtain ⟨f, hf, hname, hfa⟩ := Library.Pointwise.getElem?_left hvs ha
      obtain ⟨f', hf', hname', hfb⟩ := Library.Pointwise.getElem?_left hws hb
      cases hf.symm.trans hf'
      cases hname.trans hname'.symm
      exact ((h f (List.mem_of_getElem? hf)).apart hfa hfb).named
        (fun name ↦ bridge.quoteKey name ++ [colon, space]) name
    rw [htext, htext] at heq
    obtain ⟨hfields, hrr⟩ := enclosed_inj (.inr (.inr (.inl rfl))) (by decide)
      (fun a _ ↦ hopens a) (fun b _ ↦ hopens b) happart heq
    exact ⟨by rw [hfields], hrr⟩

theorem told_map {key item : LogicalType} (hkey : Told v2 bridge key)
    (hitem : Told v2 bridge item) : Told v2 bridge (.map key item) := by
  apply told_of_parts Value.map fun es ↦ ∀ e ∈ es, key.IsValue e.1 ∧ item.IsValue e.2
  · exact fun v hv ↦ isValue_map hv
  · exact fun es ↦ nofun
  · exact fun es ↦ apart_null (c := openBrace) rfl (by decide)
  · intro es es' hes hes' r r' _ _ heq
    have htext : ∀ es, nestedPdo v2 bridge true (.map es) =
        enclosed openBrace closeBrace (es.map (entryText v2 bridge)) := by
      intro es
      rw [← entryTexts_eq]
      rfl
    have hopens : ∀ e : Value × Value, key.IsValue e.1 →
        Opens IsDelimiter (entryText v2 bridge e) := fun e he ↦ (hkey.opens he).append _
    have happart : ∀ (i : ℕ) a b, es[i]? = some a → es'[i]? = some b →
        Apart IsDelimiter (entryText v2 bridge) a b := by
      intro i a b ha hb
      obtain ⟨hka, hva⟩ := hes a (List.mem_of_getElem? ha)
      obtain ⟨hkb, hvb⟩ := hes' b (List.mem_of_getElem? hb)
      exact (hkey.apart hka hkb).pair (.inr (.inr (.inr rfl))) (hitem.apart hva hvb)
    rw [htext, htext] at heq
    obtain ⟨hentries, hrr⟩ := enclosed_inj (.inr (.inr (.inl rfl))) (by decide)
      (fun a ha ↦ hopens a (hes a ha).1) (fun b hb ↦ hopens b (hes' b hb).1) happart heq
    exact ⟨by rw [hentries], hrr⟩

end Texts

def ScalarType.isPlain : ScalarType → Bool
  | .varchar | .boolean => true
  | .tinyint | .smallint | .integer | .bigint | .hugeint => true
  | .utinyint | .usmallint | .uinteger | .ubigint | .uhugeint => true
  | _ => false

mutual

/-- A type without UNION over plain scalars, and in DuckDB 1.x without ARRAY. -/
def LogicalType.isPlain (v2 : Bool) : LogicalType → Bool
  | .scalar type => type.isPlain
  | .list child => child.isPlain v2
  | .array child _ => v2 && child.isPlain v2
  | .struct _ fields => fieldsPlain v2 fields
  | .map key value => key.isPlain v2 && value.isPlain v2
  | .union _ => false

def fieldsPlain (v2 : Bool) : List (List Byte × LogicalType) → Bool
  | [] => true
  | (_, child) :: rest => child.isPlain v2 && fieldsPlain v2 rest

end

section Plain

variable {v2 : Bool} {engine : Engine}

/-- The driver's own texts, in the place of the engine's. -/
def driverBridge (v2 : Bool) (engine : Engine) : Bridge where
  cast type d := (smartAppendFastScalar v2 engine false type d).getD []
  quoteKey name := quote :: (name ++ [quote])

theorem fieldsPlain_eq (fields : List (List Byte × LogicalType)) :
    fieldsPlain v2 fields = fields.all fun f ↦ f.2.isPlain v2 := by
  induction fields with
  | nil => rfl
  | cons f rest ih => rw [fieldsPlain, ih, List.all_cons]

theorem isRendered_of_isPlain {type : ScalarType} (h : type.isPlain) : type.isRendered := by
  cases type <;> first | rfl | cases h

theorem not_isFloating_of_isPlain {type : ScalarType} (h : type.isPlain) : ¬ type.isFloating := by
  cases type <;> first | decide | cases h

theorem cast_driver (type : ScalarType) (d : Datum) : (driverBridge v2 engine).cast type d =
    (smartAppendFastScalar v2 engine false type d).getD [] := rfl

theorem agrees_driver {type : ScalarType} (h : type.isPlain) :
    Agrees v2 engine (driverBridge v2 engine) type := by
  refine agrees_of_cast (fun d s hs ↦ ?_) (fun hfloat ↦ ?_) (isRendered_of_isPlain h)
  · rw [cast_driver, Option.mem_def.mp hs, Option.getD_some]
  · exact absurd hfloat (not_isFloating_of_isPlain h)

theorem cast_hugeint (upper lower : UInt64) :
    (driverBridge v2 engine).cast .hugeint (.huge upper lower) = hugeintToString upper lower := by
  have htext : smartAppendFastScalar v2 engine false .hugeint (.huge upper lower) =
      some (hugeintToString upper lower) := by
    simp [smartAppendFastScalar, fastColToString]
  rw [cast_driver, htext, Option.getD_some]

theorem cast_uhugeint (upper lower : UInt64) :
    (driverBridge v2 engine).cast .uhugeint (.huge upper lower) = formatU128 upper lower := by
  have htext : smartAppendFastScalar v2 engine false .uhugeint (.huge upper lower) =
      some (formatU128 upper lower) := by
    simp [smartAppendFastScalar, fastColToString]
  rw [cast_driver, htext, Option.getD_some]

theorem cast_boolean (b : Bool) : (driverBridge v2 engine).cast .boolean (.bool b) =
    if b then ascii "true" else ascii "false" := rfl

theorem cast_driver_inj {type : ScalarType} (h : type.isPlain) (d d' : Datum)
    (hd : type.holds d) (hd' : type.holds d')
    (heq : (driverBridge v2 engine).cast type d = (driverBridge v2 engine).cast type d') :
    d = d' := by
  cases type <;> simp only [ScalarType.isPlain, Bool.false_eq_true] at h
  all_goals
    cases d <;> simp only [ScalarType.holds, Bool.false_eq_true] at hd
    cases d' <;> simp only [ScalarType.holds, Bool.false_eq_true] at hd'
  case boolean.bool.bool b b' =>
    rw [cast_boolean, cast_boolean] at heq
    revert b b'
    decide
  case varchar.bytes.bytes s s' =>
    have hs : s = s' := heq
    rw [hs]
  case hugeint.huge.huge =>
    rw [cast_hugeint, cast_hugeint] at heq
    obtain ⟨rfl, rfl⟩ := hugeintToString_inj heq
    rfl
  case uhugeint.huge.huge =>
    rw [cast_uhugeint, cast_uhugeint] at heq
    obtain ⟨rfl, rfl⟩ := formatU128_inj heq
    rfl
  case ubigint.unsigned.unsigned n n' =>
    have hn : decimal n = decimal n' := by
      simpa [cast_driver, smartAppendFastScalar, fastColToString] using heq
    rw [decimal_injective hn]
  case utinyint.unsigned.unsigned | usmallint.unsigned.unsigned | uinteger.unsigned.unsigned =>
    rw [decimal_injective heq]
  case tinyint.signed.signed | smallint.signed.signed | integer.signed.signed |
      bigint.signed.signed => rw [smartAppendI64_injective heq]

theorem told_plain {lt : LogicalType} (h : lt.isPlain v2) {rt : RenderType}
    (hbuild : nestedRenderTypeBuild lt = some rt) : Told v2 (driverBridge v2 engine) lt := by
  induction lt using LogicalType.induction generalizing rt with
  | scalar type => exact told_scalar (cast_driver_inj h)
  | list child ih =>
    obtain ⟨rchild, hchild, -⟩ := Option.map_eq_some_iff.mp hbuild
    exact told_list (ih h hchild)
  | array child n ih =>
    obtain ⟨rchild, hchild, -⟩ := Option.map_eq_some_iff.mp hbuild
    obtain ⟨rfl, hplain⟩ := Bool.and_eq_true_iff.mp h
    exact told_array n (ih hplain hchild)
  | struct tuple fields ih =>
    cases tuple with
    | true => cases hbuild
    | false =>
      obtain ⟨rfields, hfields, -⟩ := Option.map_eq_some_iff.mp hbuild
      rw [LogicalType.isPlain, fieldsPlain_eq, List.all_eq_true] at h
      refine told_struct (fun name ↦ rfl) fun f hf ↦ ?_
      obtain ⟨rchild, hchild⟩ := buildFields_mem hfields hf
      exact ih f hf (h f hf) hchild
  | map key item ihk ihv =>
    simp only [nestedRenderTypeBuild, Option.bind_eq_some_iff, Option.map_eq_some_iff] at hbuild
    obtain ⟨rkey, hkey, ritem, hitem, -⟩ := hbuild
    obtain ⟨hk, hv⟩ := Bool.and_eq_true_iff.mp h
    exact told_map (ihk hk hkey) (ihv hv hitem)
  | union members ih => cases h

theorem scalars_plain {lt : LogicalType} (h : lt.isPlain v2) :
    ∀ type ∈ lt.scalars, type.isPlain := by
  induction lt using LogicalType.induction with
  | scalar type =>
    intro type' htype
    rwa [List.mem_singleton.mp htype]
  | list child ih => exact ih h
  | array child n ih => exact ih (Bool.and_eq_true_iff.mp h).2
  | struct tuple fields ih =>
    rw [LogicalType.isPlain, fieldsPlain_eq, List.all_eq_true] at h
    rw [LogicalType.scalars, fieldScalars_eq]
    intro type htype
    obtain ⟨f, hf, htype⟩ := List.mem_flatMap.mp htype
    exact ih f hf (h f hf) type htype
  | map key item ihk ihv =>
    obtain ⟨hk, hv⟩ := Bool.and_eq_true_iff.mp h
    intro type htype
    rcases List.mem_append.mp htype with htype | htype
    · exact ihk hk type htype
    · exact ihv hv type htype
  | union members ih => cases h

/-- Inside a container the flag of the call does not matter. -/
theorem nestedPdo_nested {bridge : Bridge} {v : Value} (h : ∀ type d, v ≠ .scalar type d)
    (escape : Bool) : nestedPdo v2 bridge escape v = nestedPdo v2 bridge true v := by
  cases v with
  | scalar type d => exact absurd rfl (h type d)
  | _ => rfl

theorem not_scalar_of_isValue {lt : LogicalType} (hlt : ∀ type, lt ≠ .scalar type)
    (hplain : lt.isPlain v2) {v : Value} (hv : lt.IsValue v) (type : ScalarType) (d : Datum) :
    v ≠ .scalar type d := by
  rintro rfl
  cases lt with
  | scalar type' => exact hlt type' rfl
  | list child => rcases isValue_list hv with h | ⟨_, h, _⟩ <;> cases h
  | array child n => rcases isValue_array hv with h | ⟨_, h, _⟩ <;> cases h
  | struct tuple fields => rcases isValue_struct hv with h | ⟨_, h, _⟩ <;> cases h
  | map key item => rcases isValue_map hv with h | ⟨_, h, _⟩ <;> cases h
  | union members => cases hplain

/-- Two values of one nested type over strings, integers and booleans never have the
same text. -/
theorem fastNestedCell_injective {lt : LogicalType} {rt : RenderType}
    (hbuild : nestedRenderTypeBuild lt = some rt) (hlt : ∀ type, lt ≠ .scalar type)
    (hplain : lt.isPlain v2) {vec vec' : Vector} {row row' : ℕ} {v w : Value}
    (hv : lt.value vec row = some v) (hw : lt.value vec' row' = some w) {escape escape' : Bool}
    {s : List Byte} (hs : fastNestedCell v2 engine rt vec row escape = some s)
    (hs' : fastNestedCell v2 engine rt vec' row' escape' = some s) : v = w := by
  have hrenders : Renders v2 engine (driverBridge v2 engine) lt :=
    renders (fun name _ ↦ rfl) lt fun type htype ↦ agrees_driver (scalars_plain hplain type htype)
  have htext : ∀ {vec row v escape}, lt.value vec row = some v →
      fastNestedCell v2 engine rt vec row escape = some s →
      nestedPdo v2 (driverBridge v2 engine) true v = s := by
    intro vec row v escape hv hs
    rw [hrenders rt hbuild vec row v hv escape, rendered, Option.ite_none_left_eq_some,
      Option.some.injEq] at hs
    rw [← nestedPdo_nested (not_scalar_of_isValue hlt hplain ⟨vec, row, hv⟩) escape, hs.2]
  have htold : Told v2 (driverBridge v2 engine) lt := told_plain hplain hbuild
  have happend : nestedPdo v2 (driverBridge v2 engine) true v ++ [] =
      nestedPdo v2 (driverBridge v2 engine) true w ++ [] := by
    rw [htext hv hs, htext hw hs']
  exact (htold.apart ⟨vec, row, hv⟩ ⟨vec', row', hw⟩ [] [] .nil .nil happend).1

def otherList : Vector :=
  .list none (fun _ ↦ ⟨0, 2⟩) 2 (.flat (some (· ≠ 1)) fun _ ↦ .bytes (ascii "a,b"))

theorem fastNestedCell_otherList :
    (LogicalType.list (.scalar .varchar)).value sampleList 0 =
      (LogicalType.list (.scalar .varchar)).value otherList 0 := by
  have hv : (LogicalType.list (.scalar .varchar)).value sampleList 0 =
      some (.list [.scalar .varchar (.bytes (ascii "a,b")), .null]) := rfl
  have hw : (LogicalType.list (.scalar .varchar)).value otherList 0 =
      some (.list [.scalar .varchar (.bytes (ascii "a,b")), .null]) := rfl
  have hs : fastNestedCell false sampleEngine (.list (.scalar .varchar)) sampleList 0 true =
      some (ascii "['a,b', NULL]") := rfl
  have hs' : fastNestedCell false sampleEngine (.list (.scalar .varchar)) otherList 0 true =
      some (ascii "['a,b', NULL]") := rfl
  have hbuild : nestedRenderTypeBuild (.list (.scalar .varchar)) =
      some (.list (.scalar .varchar)) := rfl
  have hvw := fastNestedCell_injective hbuild nofun rfl hv hw hs hs'
  exact hv.trans ((congrArg some hvw).trans hw.symm)

end Plain

end PdoDuckdb.Nested
