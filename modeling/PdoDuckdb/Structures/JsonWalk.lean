import PdoDuckdb.Structures.Places
import PdoDuckdb.Value.JsonScanning

namespace PdoDuckdb.Structures

open Library Library.Exits Value Byte

section Lengths

theorem length_space (rest : List Byte) : (space rest).length ≤ rest.length :=
  List.length_dropWhile_le Json.isSpace rest

theorem length_stringEnd {rest after : List Byte} (h : Json.stringEnd rest.tail = some after) :
    after.length ≤ rest.length := by
  obtain ⟨t, ht, -⟩ := Json.stringEnd_eq h
  have hlen := congrArg List.length ht
  rw [List.length_append, List.length_tail] at hlen
  omega

theorem length_numberEnd {rest after : List Byte} (h : Json.numberEnd rest = some after) :
    after.length ≤ rest.length := by
  obtain ⟨t, rfl, -⟩ := Json.numberEnd_eq h
  rw [List.length_append]
  exact Nat.le_add_left ..

end Lengths

section Json

variable {G : Setting} {Z : Slot → Option Zval} {O : HandleSlot → Bool} {o : Slot} {depth : ℕ}
  {f : Place → Option Zval} {g : Part → Bool} {decode : List Byte → Option (List Byte)}
  {rest : List Byte} {child : List Byte → Slot → Reading (List Byte)}

/-- A reader of JSON into a place: it takes from the text, and fills the place. -/
def Reads (G : Setting) (Z : Slot → Option Zval) (O : HandleSlot → Bool) (o : Slot) (depth : ℕ)
    (f : Place → Option Zval) (g : Part → Bool) (a : Place) (rest : List Byte)
    (m : Reading (List Byte)) : Prop :=
  Meets (At G Z O o depth f g) m (fun after s ↦ ∃ v, after.length ≤ rest.length ∧
    At G Z O o depth (Function.update f a (some v)) g s) (Lost G True)

def gathered (entries : List (Key × Zval)) : Place → Option Zval :=
  Function.update (fun _ ↦ none) .payload (some (.array entries))

def Gathers (G : Setting) (Z : Slot → Option Zval) (O : HandleSlot → Bool) (o : Slot) (depth : ℕ)
    (g : Part → Bool) (rest after : List Byte) (s : Slots × Surroundings) : Prop :=
  ∃ entries, after.length ≤ rest.length ∧ At G Z O o depth (gathered entries) g s

theorem Holds.of_eq {f' : Place → Option Zval} {s : Slots × Surroundings}
    (hs : At G Z O o depth f g s) (hf : ∀ a, f a = f' a) : At G Z O o depth f' g s := by
  rwa [funext hf] at hs

section Steps

variable (hr : Ready Z O depth o) (hd : depth < valueDepth)
include hr hd

theorem jsonString_at (a : Place) (ha : f a = none) :
    Reads G Z O o depth f g a rest (jsonString decode rest (a.slot o depth)) := by
  unfold jsonString
  cases hend : Json.stringEnd rest.tail with
  | none => exact fail_meets _ trivial
  | some after =>
    refine Meets.bind request_meets fun _ ↦ ?_
    cases decode (rest.take (rest.length - after.length)) with
    | none => exact Meets.bind (setZval_at hr hd a ha rfl) fun _ ↦ fail_meets _ trivial
    | some t =>
      refine Meets.bind (setString_at hr hd a ha t) fun _ ↦ Meets.pure fun s hs ↦ ?_
      exact ⟨.string t, length_stringEnd hend, hs⟩

theorem jsonNumber_at (a : Place) (ha : f a = none) :
    Reads G Z O o depth f g a rest (jsonNumber rest (a.slot o depth)) := by
  unfold jsonNumber
  cases hend : Json.numberEnd rest with
  | none => exact fail_meets _ trivial
  | some after =>
    refine Meets.bind (tag_at hr hd a ha (ascii "number")) fun _ ↦ ?_
    refine Meets.bind (insertString_at hr hd a (Function.update_self ..) rfl (ascii "value") _) fun _ ↦ ?_
    refine Meets.pure fun s hs ↦ ?_
    rw [Function.update_idem, stored_tag] at hs
    exact ⟨_, length_numberEnd hend, hs⟩

theorem jsonLiteral_at (a : Place) (ha : f a = none) :
    Reads G Z O o depth f g a rest (jsonLiteral rest (a.slot o depth)) := by
  have hlit {b : Built} (hb : b.handles = []) (n : ℕ) :
      Reads G Z O o depth f g a rest (do setZval (a.slot o depth) b; pure (rest.drop n)) :=
    Meets.bind (setZval_at hr hd a ha hb) fun _ ↦ Meets.pure fun s hs ↦
      ⟨b.zval, List.length_drop ▸ Nat.sub_le _ _, hs⟩
  unfold jsonLiteral
  split_ifs
  · exact hlit rfl 4
  · exact hlit rfl 4
  · exact hlit rfl 5
  · exact fail_meets _ trivial

theorem jsonKey_at (ha : f .key = none) :
    Reads G Z O o depth f g .key rest (jsonKey decode depth rest) := by
  unfold jsonKey
  split_ifs
  · refine Meets.bind (jsonString_at hr hd .key ha) fun after ↦ Meets.chosen fun v hlen ↦ ?_
    split_ifs
    · refine Meets.pure fun s hs ↦ ⟨v, ?_, hs⟩
      have hspace := length_space rest
      have hspace' := length_space after
      rw [List.length_tail]
      omega
    · exact fail_meets _ trivial
  · exact fail_meets _ trivial

/-- A value one level down, appended to what has been gathered. -/
theorem jsonValue_at (hchild : ∀ rest, Walks G (depth + 1) (child rest)
      (fun after _ ↦ after.length ≤ rest.length) True) {object : Bool} {key : Option Zval}
    (hkey : key.isSome = object) (entries : List (Key × Zval)) :
    Meets (At G Z O o depth (Function.update (gathered entries) .key key) g)
      (jsonValue child depth object rest) (Gathers G Z O o depth g rest) (Lost G True) := by
  unfold jsonValue
  refine Meets.bind (child_at hr hd (hchild rest) .item rfl) fun after ↦
    Meets.chosen fun v hlen ↦ ?_
  cases object with
  | true =>
    obtain ⟨k, rfl⟩ := Option.isSome_iff_exists.mp hkey
    refine Meets.bind (newArray_at hr hd .entry rfl) fun _ ↦ ?_
    refine Meets.bind (insert_at hr hd .entry .key nofun rfl rfl rfl (ascii "key")) fun _ ↦ ?_
    refine Meets.bind (insert_at hr hd .entry .item nofun rfl rfl rfl (ascii "value")) fun _ ↦ ?_
    refine Meets.bind (append_at hr hd .payload .entry nofun rfl rfl) fun _ ↦ Meets.pure fun s hs ↦ ?_
    rw [stored_entry] at hs
    refine ⟨entries ++ [(.index entries.length, .entry k v)], hlen, hs.of_eq fun a ↦ ?_⟩
    cases a <;> rfl
  | false =>
    obtain rfl : key = none := Option.isSome_eq_false_iff.mp hkey |> Option.isNone_iff_eq_none.mp
    refine Meets.bind (append_at hr hd .payload .item nofun rfl rfl) fun _ ↦ Meets.pure fun s hs ↦ ?_
    refine ⟨entries ++ [(.index entries.length, v)], hlen, hs.of_eq fun a ↦ ?_⟩
    cases a <;> rfl

omit hr hd in
theorem jsonCount_meets : Meets (Holds G Z O) (jsonCount depth) (fun _ ↦ Holds G Z O) (Lost G True) := by
  intro s hs
  unfold jsonCount
  split_ifs
  · exact fail_meets (α := PUnit) (Q := fun _ ↦ Holds G Z O) _ trivial s hs
  · exact hs

theorem jsonElements_at (hchild : ∀ rest, Walks G (depth + 1) (child rest)
      (fun after _ ↦ after.length ≤ rest.length) True) (object : Bool) (fuel : ℕ)
    (rest : List Byte) (hfuel : rest.length < fuel) (entries : List (Key × Zval)) :
    Meets (At G Z O o depth (gathered entries) g) (jsonElements decode child depth object fuel rest)
      (Gathers G Z O o depth g rest) (Lost G True) := by
  induction fuel generalizing rest entries with
  | zero => cases hfuel
  | succ fuel ih =>
    have hkeyed : Meets (At G Z O o depth (gathered entries) g)
        (jsonKeyed decode depth object rest) (fun keyed s ↦ ∃ key : Option Zval, (key.isSome = object ∧ keyed.length ≤ rest.length) ∧
          At G Z O o depth (Function.update (gathered entries) .key key) g s) (Lost G True) := by
      cases object with
      | true =>
        refine (jsonKey_at hr hd rfl).post fun keyed s ↦ ?_
        rintro ⟨k, hlen, hs⟩
        exact ⟨some k, ⟨rfl, hlen⟩, hs⟩
      | false =>
        refine Meets.pure fun s hs ↦ ⟨none, ⟨rfl, Nat.le_refl _⟩, hs.of_eq fun a ↦ ?_⟩
        cases a <;> rfl
    unfold jsonElements
    refine Meets.bind jsonCount_meets fun _ ↦ Meets.bind hkeyed fun keyed ↦ Meets.chosen fun key hkey ↦ ?_
    refine Meets.bind (jsonValue_at hr hd hchild hkey.1 entries) fun after ↦
      Meets.chosen fun entries' hlen ↦ ?_
    have hspace := length_space after
    cases hafter : space after with
    | nil => exact fail_meets _ trivial
    | cons c after' =>
      rw [hafter, List.length_cons] at hspace
      have hless : after'.length < rest.length := by
        have hkeyed := hkey.2
        omega
      dsimp only
      split_ifs
      · exact Meets.pure fun s hs ↦ ⟨entries', hless.le, hs⟩
      · exact fail_meets _ trivial
      · refine (ih after' (by omega) entries').post fun r s ↦ ?_
        rintro ⟨es, hr', hs⟩
        exact ⟨es, hr'.trans hless.le, hs⟩

theorem jsonContainer_at (hchild : ∀ rest, Walks G (depth + 1) (child rest)
      (fun after _ ↦ after.length ≤ rest.length) True) (object : Bool) (rest : List Byte) :
    Meets (At G Z O o depth (fun _ ↦ none) g) (jsonContainer decode child depth object rest o)
      (fun after s ↦ ∃ v, after.length ≤ rest.length ∧ ∃ f, f .out = some v ∧ At G Z O o depth f g s)
      (Lost G True) := by
  have hspace := length_space rest
  have hloop : Meets (At G Z O o depth (gathered []) g)
      (jsonMembers decode child depth object rest) (Gathers G Z O o depth g rest) (Lost G True) := by
    unfold jsonMembers
    split_ifs
    · refine Meets.pure fun s hs ↦ ⟨[], ?_, hs⟩
      rw [List.length_tail]
      omega
    · refine (jsonElements_at hr hd hchild object _ _ (Nat.lt_succ_self _) []).post fun after s ↦ ?_
      rintro ⟨es, hlen, hs⟩
      exact ⟨es, hlen.trans hspace, hs⟩
  unfold jsonContainer
  refine Meets.bind (newArray_at hr hd .payload rfl) fun _ ↦ Meets.bind hloop fun after ↦
    Meets.chosen fun entries hlen ↦ ?_
  cases object with
  | true =>
    refine Meets.bind (tag_at hr hd .out rfl (ascii "object")) fun _ ↦ ?_
    refine Meets.bind (insert_at hr hd .out .payload nofun rfl rfl rfl (ascii "value")) fun _ ↦ ?_
    exact Meets.pure fun s hs ↦ ⟨_, hlen, _, rfl, hs⟩
  | false =>
    refine Meets.bind (moveZval_at hr hd .payload .out nofun rfl) fun _ ↦ ?_
    exact Meets.pure fun s hs ↦ ⟨_, hlen, _, rfl, hs⟩

theorem jsonImpl_at (hchild : ∀ rest, Walks G (depth + 1) (child rest)
      (fun after _ ↦ after.length ≤ rest.length) True) (rest : List Byte) :
    Meets (At G Z O o depth (fun _ ↦ none) fun _ ↦ false) (jsonImpl decode child depth rest o)
      (Filled G Z O o depth fun after _ ↦ after.length ≤ rest.length) (Lost G True) := by
  have hleaf {rest' : List Byte} {m : Reading (List Byte)} (hlen : rest'.length ≤ rest.length)
      (hm : Reads G Z O o depth (fun _ ↦ none) (fun _ ↦ false) .out rest' m) :
      Meets (At G Z O o depth (fun _ ↦ none) fun _ ↦ false) m
        (Filled G Z O o depth fun after _ ↦ after.length ≤ rest.length) (Lost G True) := by
    refine hm.post fun after s ↦ ?_
    rintro ⟨v, hafter, hs⟩
    exact ⟨v, hafter.trans hlen, _, _, rfl, hs⟩
  have hspace := length_space rest
  unfold jsonImpl
  cases hc : space rest with
  | nil => exact fail_meets _ trivial
  | cons c rest' =>
    rw [hc] at hspace
    have hcontainer (object : Bool) : Meets (At G Z O o depth (fun _ ↦ none) fun _ ↦ false)
        (jsonContainer decode child depth object rest' o)
        (Filled G Z O o depth fun after _ ↦ after.length ≤ rest.length) (Lost G True) := by
      refine (jsonContainer_at hr hd hchild object rest').post fun after s ↦ ?_
      rintro ⟨v, hafter, f, hf, hs⟩
      exact ⟨v, hafter.trans (Nat.le_of_succ_le hspace), f, _, hf, hs⟩
    dsimp only
    split_ifs
    · exact hleaf hspace (jsonString_at hr hd .out rfl)
    · exact hleaf hspace (jsonNumber_at hr hd .out rfl)
    · exact hcontainer false
    · exact hcontainer true
    · exact hleaf hspace (jsonLiteral_at hr hd .out rfl)

end Steps

/-- The reader of JSON at a depth, by induction on the levels that are left. -/
theorem jsonBelow_walks (levels depth : ℕ) (hlevels : depth + levels = valueDepth) (rest : List Byte) :
    Walks G depth (jsonBelow decode levels depth rest) (fun after _ ↦ after.length ≤ rest.length) True := by
  induction levels generalizing depth rest with
  | zero => exact fun Z O o _ ↦ fail_meets _ trivial
  | succ levels ih =>
    have hd : depth < valueDepth := by omega
    refine walks_frame hd fun Z O o hr ↦ ?_
    exact jsonImpl_at hr hd (ih (depth + 1) (by omega)) rest

theorem jsonNode_walks (decode : List Byte → Option (List Byte)) (hd : depth ≤ valueDepth)
    (rest : List Byte) :
    Walks G depth (jsonNode decode depth rest) (fun after _ ↦ after.length ≤ rest.length) True :=
  jsonBelow_walks (valueDepth - depth) depth (Nat.add_sub_cancel' hd) rest

end Json

end PdoDuckdb.Structures
