import PdoDuckdb.Value.Json
import Mathlib.Data.List.Forall2

namespace PdoDuckdb.Value.Json

open Byte

/-- A JSON value. Members are kept in order, with their duplicates, and a number
as it is spelled. -/
inductive Tree
  | null
  | bool (b : Bool)
  | number (lexeme : List Byte)
  | string (s : List Byte)
  | array (elements : List Tree)
  | object (members : List (List Byte × Tree))

section Grammar

def Spaces (w : List Byte) : Prop := ∀ c ∈ w, isSpace c

def Digits (t : List Byte) : Prop := t ≠ [] ∧ ∀ c ∈ t, isDigit c

def IsInteger (t : List Byte) : Prop :=
  t = [0x30] ∨ ∃ c u, t = c :: u ∧ 0x31 ≤ c ∧ c ≤ 0x39 ∧ ∀ d ∈ u, isDigit d

def IsFraction (t : List Byte) : Prop := t = [] ∨ ∃ u, t = 0x2e :: u ∧ Digits u

def IsExponent (t : List Byte) : Prop :=
  t = [] ∨ ∃ e sign u, t = e :: (sign ++ u) ∧ (e = 0x65 ∨ e = 0x45) ∧
    (sign = [] ∨ sign = [0x2b] ∨ sign = [minus]) ∧ Digits u

def lowercase (c : Byte) : Byte := if 0x41 ≤ c ∧ c ≤ 0x5a then c + 0x20 else c

/-- `nan`, `inf` or `infinity` in any case. -/
def IsNonFinite (t : List Byte) : Prop :=
  t.map lowercase = ascii "nan" ∨ t.map lowercase = ascii "inf" ∨
    t.map lowercase = ascii "infinity"

/-- A number of RFC 8259, or one of the three words, with or without a minus. -/
def IsNumber (t : List Byte) : Prop :=
  ∃ sign body, t = sign ++ body ∧ (sign = [] ∨ sign = [minus]) ∧
    (IsNonFinite body ∨
      ∃ i f e, body = i ++ (f ++ e) ∧ IsInteger i ∧ IsFraction f ∧ IsExponent e)

/-- From after the opening quote to the first quote that no backslash escapes. -/
inductive Quoted : List Byte → Prop
  | close : Quoted [doubleQuote]
  | plain {c : Byte} {t : List Byte} :
      c ≠ backslash → c ≠ doubleQuote → Quoted t → Quoted (c :: t)
  | escaped {c : Byte} {t : List Byte} : Quoted t → Quoted (backslash :: c :: t)

variable (decode : List Byte → Option (List Byte))

/-- A string token and its value; what the token may hold is up to `decode`. -/
def IsString (t s : List Byte) : Prop :=
  ∃ u, t = doubleQuote :: u ∧ Quoted u ∧ decode t = some s

mutual

inductive IsValue : List Byte → Tree → Prop
  | null : IsValue (ascii "null") .null
  | true : IsValue (ascii "true") (.bool true)
  | false : IsValue (ascii "false") (.bool false)
  | number {t : List Byte} : IsNumber t → IsValue t (.number t)
  | string {t s : List Byte} : IsString decode t s → IsValue t (.string s)
  | emptyArray {w : List Byte} : Spaces w → IsValue (openBracket :: (w ++ [closeBracket])) (.array [])
  | array {t : List Byte} {js : List Tree} :
      AreElements t js → IsValue (openBracket :: (t ++ [closeBracket])) (.array js)
  | emptyObject {w : List Byte} : Spaces w → IsValue (openBrace :: (w ++ [closeBrace])) (.object [])
  | object {t : List Byte} {ms : List (List Byte × Tree)} :
      AreMembers t ms → IsValue (openBrace :: (t ++ [closeBrace])) (.object ms)

inductive AreElements : List Byte → List Tree → Prop
  | last {a t b : List Byte} {j : Tree} :
      Spaces a → IsValue t j → Spaces b → AreElements (a ++ (t ++ b)) [j]
  | cons {a t b u : List Byte} {j : Tree} {js : List Tree} :
      Spaces a → IsValue t j → Spaces b → AreElements u js →
      AreElements (a ++ (t ++ (b ++ comma :: u))) (j :: js)

inductive AreMembers : List Byte → List (List Byte × Tree) → Prop
  | last {a k b c t d s : List Byte} {j : Tree} :
      Spaces a → IsString decode k s → Spaces b → Spaces c → IsValue t j → Spaces d →
      AreMembers (a ++ (k ++ (b ++ colon :: (c ++ (t ++ d))))) [(s, j)]
  | cons {a k b c t d u s : List Byte} {j : Tree} {ms : List (List Byte × Tree)} :
      Spaces a → IsString decode k s → Spaces b → Spaces c → IsValue t j → Spaces d →
      AreMembers u ms →
      AreMembers (a ++ (k ++ (b ++ colon :: (c ++ (t ++ (d ++ comma :: u)))))) ((s, j) :: ms)

end

/-- A JSON text: one value, with optional space around it. -/
def Document (text : List Byte) (j : Tree) : Prop :=
  ∃ a t b, text = a ++ (t ++ b) ∧ Spaces a ∧ IsValue decode t j ∧ Spaces b

end Grammar

/-- At most `levels` values deep, and no array or object of more than `limit`
elements. -/
inductive Within (limit : ℕ) : ℕ → Tree → Prop
  | null {levels : ℕ} : Within limit (levels + 1) .null
  | bool {levels : ℕ} {b : Bool} : Within limit (levels + 1) (.bool b)
  | number {levels : ℕ} {t : List Byte} : Within limit (levels + 1) (.number t)
  | string {levels : ℕ} {s : List Byte} : Within limit (levels + 1) (.string s)
  | array {levels : ℕ} {js : List Tree} :
      js.length ≤ limit → (∀ j ∈ js, Within limit levels j) → Within limit (levels + 1) (.array js)
  | object {levels : ℕ} {ms : List (List Byte × Tree)} :
      ms.length ≤ limit → (∀ m ∈ ms, Within limit levels m.2) →
      Within limit (levels + 1) (.object ms)

mutual

def Tree.zval : Tree → Zval
  | .null => .null
  | .bool b => .bool b
  | .number t => .tagged (ascii "number") (.string t)
  | .string s => .string s
  | .array js => .list (elementZvals js)
  | .object ms => .tagged (ascii "object") (.list (memberZvals ms))

def elementZvals : List Tree → List Zval
  | [] => []
  | j :: js => j.zval :: elementZvals js

def memberZvals : List (List Byte × Tree) → List Zval
  | [] => []
  | (s, j) :: ms => .entry (.string s) j.zval :: memberZvals ms

end

theorem number_ne_object : ascii "number" ≠ ascii "object" := by decide

mutual

/-- The tree is lossless. -/
theorem Tree.zval_injective : ∀ j j' : Tree, j.zval = j'.zval → j = j'
  | .null, j', h => by cases j' <;> simp_all [Tree.zval, Zval.list, Zval.tagged]
  | .bool b, j', h => by cases j' <;> simp_all [Tree.zval, Zval.list, Zval.tagged]
  | .number t, j', h => by
    cases j' with
    | number t' =>
      have ht := (Zval.tagged_injective h).2
      rw [Zval.string.inj ht]
    | array js => exact (Zval.list_ne_tagged _ _ _ h.symm).elim
    | object ms => exact absurd (Zval.tagged_injective h).1 number_ne_object
    | _ => cases h
  | .string s, j', h => by cases j' <;> simp_all [Tree.zval, Zval.list, Zval.tagged]
  | .array js, j', h => by
    cases j' with
    | array js' => rw [elementZvals_injective js js' (Zval.list_injective h)]
    | number t => exact (Zval.list_ne_tagged _ _ _ h).elim
    | object ms => exact (Zval.list_ne_tagged _ _ _ h).elim
    | _ => cases h
  | .object ms, j', h => by
    cases j' with
    | object ms' =>
      have hms := (Zval.tagged_injective h).2
      rw [memberZvals_injective ms ms' (Zval.list_injective hms)]
    | array js => exact (Zval.list_ne_tagged _ _ _ h.symm).elim
    | number t => exact absurd (Zval.tagged_injective h).1.symm number_ne_object
    | _ => cases h

theorem elementZvals_injective : ∀ js js' : List Tree, elementZvals js = elementZvals js' → js = js'
  | [], js', h => by cases js' <;> simp_all [elementZvals]
  | j :: js, [], h => by simp [elementZvals] at h
  | j :: js, j' :: js', h => by
    obtain ⟨hj, hjs⟩ := List.cons.inj h
    rw [Tree.zval_injective j j' hj, elementZvals_injective js js' hjs]

theorem memberZvals_injective : ∀ ms ms' : List (List Byte × Tree),
    memberZvals ms = memberZvals ms' → ms = ms'
  | [], ms', h => by cases ms' <;> simp_all [memberZvals]
  | (s, j) :: ms, [], h => by simp [memberZvals] at h
  | (s, j) :: ms, (s', j') :: ms', h => by
    obtain ⟨hm, hms⟩ := List.cons.inj h
    obtain ⟨hs, hj⟩ := Zval.entry_injective hm
    rw [Zval.string.inj hs, Tree.zval_injective j j' hj, memberZvals_injective ms ms' hms]

end

end PdoDuckdb.Value.Json
