import PdoDuckdb.Value.JsonScanning

namespace PdoDuckdb.Value.Json

open Byte

variable {decode : List Byte → Option (List Byte)} {limit levels depth fuel : ℕ} {r : Reader}
  {o : Read} {a b t u v w rest : List Byte} {j : Tree} {child : Reader → Option Read}
  {object : Bool} {c : Byte}

inductive Separated {ι : Type} (Item : List Byte → ι → Prop) : List Byte → List ι → Prop
  | last {t b : List Byte} {i : ι} : Item t i → Spaces b → Separated Item (t ++ b) [i]
  | cons {t b u : List Byte} {i : ι} {is : List ι} :
      Item t i → Spaces b → Separated Item u is →
      Separated Item (t ++ (b ++ comma :: u)) (i :: is)

def IsElement (decode : List Byte → Option (List Byte)) (t : List Byte) (j : Tree) : Prop :=
  ∃ a v, t = a ++ v ∧ Spaces a ∧ IsValue decode v j

def IsMember (decode : List Byte → Option (List Byte)) (t : List Byte) (m : List Byte × Tree) :
    Prop :=
  ∃ a k b c v, t = a ++ (k ++ (b ++ colon :: (c ++ v))) ∧ Spaces a ∧ IsString decode k m.1 ∧
    Spaces b ∧ Spaces c ∧ IsValue decode v m.2

theorem areElements_iff {js : List Tree} :
    AreElements decode t js ↔ Separated (IsElement decode) t js := by
  constructor
  · intro h
    induction js generalizing t with
    | nil => cases h
    | cons j js ih =>
      cases h with
      | @last a v b _ ha hv hb =>
        rw [← List.append_assoc]
        exact .last ⟨a, v, rfl, ha, hv⟩ hb
      | @cons a v b u _ _ ha hv hb hu =>
        rw [← List.append_assoc]
        exact .cons ⟨a, v, rfl, ha, hv⟩ hb (ih hu)
  · intro h
    induction h with
    | last hi hb =>
      obtain ⟨a, v, rfl, ha, hv⟩ := hi
      rw [List.append_assoc]
      exact .last ha hv hb
    | cons hi hb _ ih =>
      obtain ⟨a, v, rfl, ha, hv⟩ := hi
      rw [List.append_assoc]
      exact .cons ha hv hb ih

theorem areMembers_iff {ms : List (List Byte × Tree)} :
    AreMembers decode t ms ↔ Separated (IsMember decode) t ms := by
  constructor
  · intro h
    induction ms generalizing t with
    | nil => cases h
    | cons m ms ih =>
      cases h with
      | @last a k b c v d s j ha hk hb hc hv hd =>
        have hitem : IsMember decode (a ++ (k ++ (b ++ colon :: (c ++ v)))) (s, j) :=
          ⟨a, k, b, c, v, rfl, ha, hk, hb, hc, hv⟩
        simpa using Separated.last hitem hd
      | @cons a k b c v d u s j _ ha hk hb hc hv hd hu =>
        have hitem : IsMember decode (a ++ (k ++ (b ++ colon :: (c ++ v)))) (s, j) :=
          ⟨a, k, b, c, v, rfl, ha, hk, hb, hc, hv⟩
        simpa using Separated.cons hitem hd (ih hu)
  · intro h
    induction h with
    | last hi hd =>
      obtain ⟨a, k, b, c, v, rfl, ha, hk, hb, hc, hv⟩ := hi
      simpa using AreMembers.last ha hk hb hc hv hd
    | cons hi hd _ ih =>
      obtain ⟨a, k, b, c, v, rfl, ha, hk, hb, hc, hv⟩ := hi
      simpa using AreMembers.cons ha hk hb hc hv hd ih

theorem follows_spaces (hb : Spaces b)
    (hu : ∀ c ∈ u.head?, c = comma ∨ c = closeBracket ∨ c = closeBrace) : Follows (b ++ u) := by
  cases b with
  | nil => exact fun c hc ↦ .inr (hu c hc)
  | cons d b =>
    intro c hc
    obtain rfl := Option.some.inj hc
    exact .inl (hb _ List.mem_cons_self)

/-- A function that reads a value takes it from the input, with the space before
it, exactly when there is one within the limits; either way it returns, with
the frames as it found them. -/
def ReadsValue (decode : List Byte → Option (List Byte)) (limit levels depth : ℕ)
    (f : Reader → Option Read) : Prop :=
  ∀ r, ClearFrom r.frames depth → ∃ o, f r = some o ∧ o.reader.frames = r.frames ∧
    o.reader.rest.length ≤ r.rest.length ∧
    (o.status → ∃ t j, r.rest = t ++ o.reader.rest ∧ IsElement decode t j ∧
      Within limit levels j ∧ o.out = some j.zval) ∧
    ∀ t j rest, r.rest = t ++ rest → IsElement decode t j → Within limit levels j →
      Follows rest → o.status ∧ o.out = some j.zval ∧ o.reader.rest = rest

theorem take_sub_length (t r : List Byte) : (t ++ r).take ((t ++ r).length - r.length) = t := by
  rw [List.length_append, Nat.add_sub_cancel, List.take_left]

theorem string_eq (hq : r.rest.head? = some doubleQuote) (h : (string decode r).status) :
    ∃ t s, r.rest = t ++ (string decode r).reader.rest ∧ IsString decode t s ∧
      (string decode r).out = some (.string s) := by
  unfold string at h ⊢
  cases hend : stringEnd r.rest.tail with
  | none =>
    rw [hend] at h
    cases h
  | some rest =>
    obtain ⟨t, ht, hquoted⟩ := stringEnd_eq hend
    have hrest : r.rest = (doubleQuote :: t) ++ rest := by
      rw [List.cons_append, ← ht]
      exact (List.cons_head?_tail hq).symm
    rw [hend] at h
    simp only [hrest, take_sub_length] at h ⊢
    cases hs : decode (doubleQuote :: t) with
    | none =>
      rw [hs] at h
      cases h
    | some s => exact ⟨doubleQuote :: t, s, rfl, ⟨t, rfl, hquoted, hs⟩, rfl⟩

theorem string_frames : (string decode r).reader.frames = r.frames := by
  unfold string
  split
  · rfl
  · split <;> rfl

theorem string_length : (string decode r).reader.rest.length ≤ r.rest.length := by
  unfold string
  split
  · exact Nat.zero_le _
  next rest hend =>
    obtain ⟨t, ht, -⟩ := stringEnd_eq hend
    have hlen : rest.length ≤ r.rest.tail.length := by
      rw [ht, List.length_append]
      omega
    rw [List.length_tail] at hlen
    split <;> exact Nat.le_trans hlen (Nat.sub_le _ _)

theorem string_string {s : List Byte} (hr : r.rest = t ++ rest) (ht : IsString decode t s) :
    string decode r = ⟨true, some (.string s), { r with rest := rest }⟩ := by
  obtain ⟨u, rfl, hquoted, hs⟩ := ht
  unfold string
  rw [hr, List.cons_append, List.tail_cons, stringEnd_quoted hquoted]
  simp only [← List.cons_append, take_sub_length, hs]

theorem space_eq (r : Reader) : ∃ w, r.rest = w ++ r.space.rest ∧ Spaces w :=
  ⟨r.rest.takeWhile isSpace, (List.takeWhile_append_dropWhile ..).symm, spaces_takeWhile r.rest⟩

theorem space_length (r : Reader) : r.space.rest.length ≤ r.rest.length :=
  List.length_dropWhile_le isSpace r.rest

theorem space_spaces (hr : r.rest = w ++ rest) (hw : Spaces w)
    (hrest : ∀ c ∈ rest.head?, ¬ isSpace c) : r.space = { r with rest := rest } := by
  unfold Reader.space
  rw [hr, dropWhile_spaces hw hrest]

/-- Leading space can be taken off in one way only. -/
theorem spaces_unique (hw : Spaces w) (hv : Spaces v) (ht : ∀ c ∈ t.head?, ¬ isSpace c)
    (hu : ∀ c ∈ u.head?, ¬ isSpace c) (h : w ++ t = v ++ u) : t = u := by
  rw [← dropWhile_spaces hw ht, h, dropWhile_spaces hv hu]

theorem rest_eq_of_head (h : r.rest.head? = some c) : r.rest = c :: r.rest.tail :=
  (List.cons_head?_tail h).symm

theorem keyColon_frames : (keyColon r).reader.frames = r.frames := by
  unfold keyColon
  dsimp only
  split <;> rfl

theorem keyColon_length : (keyColon r).reader.rest.length ≤ r.rest.length := by
  have hlen := space_length r
  unfold keyColon
  dsimp only
  split
  · exact Nat.le_trans (List.length_tail ▸ Nat.sub_le _ _) hlen
  · exact hlen

theorem keyColon_eq (h : (keyColon r).status) :
    ∃ b, r.rest = b ++ colon :: (keyColon r).reader.rest ∧ Spaces b := by
  obtain ⟨b, hb, hspaces⟩ := space_eq r
  unfold keyColon at h ⊢
  dsimp only at h ⊢
  split at h
  next hcolon =>
    rw [if_pos hcolon]
    exact ⟨b, by rw [hb, rest_eq_of_head hcolon]; rfl, hspaces⟩
  · cases h

theorem keyColon_colon (hr : r.rest = b ++ colon :: rest) (hb : Spaces b) :
    keyColon r = ⟨true, none, { r with rest := rest }⟩ := by
  have hspace := space_spaces hr hb (by rintro c ⟨⟩; decide)
  unfold keyColon
  rw [hspace]
  rfl

theorem memberKey_frames (decode : List Byte → Option (List Byte)) (depth : ℕ) (r : Reader) : ∃ f, (memberKey decode depth r).reader.frames =
    Function.update r.frames depth f := by
  have hframes : (string decode r.space).reader.frames = r.frames := string_frames
  unfold memberKey
  dsimp only
  rw [← hframes]
  split
  · split
    · exact ⟨_, keyColon_frames⟩
    · exact ⟨_, rfl⟩
  · exact ⟨r.frames depth, by rw [hframes, Function.update_eq_self]; rfl⟩

theorem memberKey_length : (memberKey decode depth r).reader.rest.length ≤ r.rest.length := by
  have hspace := space_length r
  have hstring : (string decode r.space).reader.rest.length ≤ r.space.rest.length := string_length
  unfold memberKey
  dsimp only
  split
  · split
    · exact Nat.le_trans keyColon_length (Nat.le_trans hstring hspace)
    · exact Nat.le_trans hstring hspace
  · exact hspace

theorem memberKey_eq (h : (memberKey decode depth r).status) :
    ∃ a k s b, r.rest = a ++ (k ++ (b ++ colon :: (memberKey decode depth r).reader.rest)) ∧
      Spaces a ∧ IsString decode k s ∧ Spaces b ∧
      (memberKey decode depth r).reader.frames =
        Function.update r.frames depth { r.frames depth with key := some (.string s) } := by
  obtain ⟨a, hr, ha⟩ := space_eq r
  have hframes : (string decode r.space).reader.frames = r.frames := string_frames
  unfold memberKey at h ⊢
  dsimp only at h ⊢
  split at h
  next hquote =>
    split at h
    next hstring =>
      obtain ⟨k, s, hk, hs, hout⟩ := string_eq hquote hstring
      obtain ⟨b, hb, hspaces⟩ := keyColon_eq h
      simp only [if_pos hquote, if_pos hstring]
      refine ⟨a, k, s, b, ?_, ha, hs, hspaces, ?_⟩
      · rw [hr, hk]
        exact congrArg (fun x ↦ a ++ (k ++ x)) hb
      · rw [keyColon_frames, hout]
        simp only [Reader.setFrame, hframes]
    · cases h
  · cases h

theorem memberKey_key {k s : List Byte} (hr : r.rest = a ++ (k ++ (b ++ colon :: rest)))
    (ha : Spaces a) (hk : IsString decode k s) (hb : Spaces b) :
    memberKey decode depth r = ⟨true, none, { r with rest := rest }.setFrame depth
      { r.frames depth with key := some (.string s) }⟩ := by
  have hquote : ∀ x, (k ++ x).head? = some doubleQuote := by
    obtain ⟨u, rfl, -⟩ := hk
    exact fun _ ↦ rfl
  have hspace := space_spaces hr ha (by rw [hquote]; rintro c ⟨⟩; decide)
  unfold memberKey
  rw [hspace]
  simp only [hquote, if_true]
  rw [string_string rfl hk]
  exact keyColon_colon rfl hb

section Loop

variable {ι : Type} {Item : List Byte → ι → Prop} {zv : ι → Zval} {W : ι → Prop} {is : List ι}
  {i : ι} {vs : List Zval}

def ReadsItem (Item : List Byte → ι → Prop) (zv : ι → Zval) (W : ι → Prop) (depth : ℕ)
    (f : Reader → Option Read) : Prop :=
  ∀ r vs, ClearFrom r.frames (depth + 1) → r.frames depth = .held vs →
    ∃ o, f r = some o ∧ (∃ g, o.reader.frames = Function.update r.frames depth g) ∧
      o.reader.rest.length ≤ r.rest.length ∧
      (o.status → ∃ t i, r.rest = t ++ o.reader.rest ∧ Item t i ∧ W i ∧
        o.reader.frames = Function.update r.frames depth (.held (vs ++ [zv i]))) ∧
      ∀ t i rest, r.rest = t ++ rest → Item t i → W i → Follows rest →
        o.status ∧ o.reader.rest = rest ∧
          o.reader.frames = Function.update r.frames depth (.held (vs ++ [zv i]))

theorem store_element (z : Zval) :
    store false { Frame.held vs with item := some z } = .held (vs ++ [z]) := by
  simp [store, Frame.held, Zval.append_list]

theorem store_member (k z : Zval) :
    store true { Frame.held vs with key := some k, item := some z } =
      .held (vs ++ [.entry k z]) := by
  simp [store, Frame.held, Zval.append_list, Zval.insert_entry]

theorem storeItem_frames (depth : ℕ) (object : Bool) (o : Read) : ∃ g, (storeItem depth object o).reader.frames =
    Function.update o.reader.frames depth g := by
  unfold storeItem
  dsimp only
  split <;> exact ⟨_, rfl⟩

theorem storeItem_rest : (storeItem depth object o).reader.rest = o.reader.rest := by
  unfold storeItem
  dsimp only
  split <;> rfl

theorem storeItem_status : (storeItem depth object o).status = o.status := by
  unfold storeItem
  dsimp only
  split
  next h => exact h.symm
  next h => exact (Bool.eq_false_iff.mpr h).symm

theorem storeItem_stored (h : o.status) : (storeItem depth object o).reader.frames =
    Function.update o.reader.frames depth
      (store object { o.reader.frames depth with item := o.out }) := by
  unfold storeItem
  dsimp only
  rw [if_pos h]
  rfl

theorem readElement (hchild : ReadsValue decode limit levels (depth + 1) child) :
    ReadsItem (IsElement decode) Tree.zval (Within limit levels) depth
      (readItem decode child depth false) := by
  intro r vs hclear hframe
  obtain ⟨o, ho, hframes, hlen, hsound, hcomplete⟩ := hchild r hclear
  have he : readItem decode child depth false r = some (storeItem depth false o) := by
    have hr : readItem decode child depth false r = (child r).map (storeItem depth false) := rfl
    rw [hr, ho, Option.map_some]
  have hstored : ∀ z, o.status → o.out = some z → (storeItem depth false o).reader.frames =
      Function.update r.frames depth (.held (vs ++ [z])) := by
    intro z hstatus hz
    rw [storeItem_stored hstatus, hz, hframes, hframe, store_element]
  obtain ⟨g, hg⟩ := storeItem_frames depth false o
  refine ⟨_, he, ⟨g, by rw [hg, hframes]⟩, by rwa [storeItem_rest], ?_, ?_⟩
  · intro hstatus
    rw [storeItem_status] at hstatus
    obtain ⟨t, j, hr, ht, hw, hout⟩ := hsound hstatus
    exact ⟨t, j, by rw [storeItem_rest, hr], ht, hw, hstored _ hstatus hout⟩
  · intro t j rest hr ht hw hfollows
    obtain ⟨hstatus, hout, hrest⟩ := hcomplete t j rest hr ht hw hfollows
    exact ⟨by rwa [storeItem_status], by rwa [storeItem_rest], hstored _ hstatus hout⟩

def memberZval (m : List Byte × Tree) : Zval := .entry (.string m.1) m.2.zval

theorem isMember_key (depth : ℕ) {m : List Byte × Tree} (hr : r.rest = t ++ rest) (ht : IsMember decode t m) :
    ∃ u, IsElement decode u m.2 ∧ memberKey decode depth r =
      ⟨true, none, { r with rest := u ++ rest }.setFrame depth
        { r.frames depth with key := some (.string m.1) }⟩ := by
  obtain ⟨a, k, b, c, v, rfl, ha, hk, hb, hc, hv⟩ := ht
  refine ⟨c ++ v, ⟨c, v, rfl, hc, hv⟩, memberKey_key ?_ ha hk hb⟩
  rw [hr]
  simp

theorem readMember (hchild : ReadsValue decode limit levels (depth + 1) child) :
    ReadsItem (IsMember decode) memberZval (fun m ↦ Within limit levels m.2) depth
      (readItem decode child depth true) := by
  intro r vs hclear hframe
  have he : readItem decode child depth true r = if (memberKey decode depth r).status then
      (child (memberKey decode depth r).reader).map (storeItem depth true)
      else some (memberKey decode depth r) := rfl
  obtain ⟨f, hf⟩ := memberKey_frames decode depth r
  have hlength : (memberKey decode depth r).reader.rest.length ≤ r.rest.length := memberKey_length
  rw [he]
  by_cases hkey : (memberKey decode depth r).status
  · have hclear' : ClearFrom (memberKey decode depth r).reader.frames (depth + 1) := by
      rw [hf]
      exact hclear.update f
    obtain ⟨o, ho, hframes, hlen, hsound, hcomplete⟩ := hchild _ hclear'
    have hstored : ∀ s z, (memberKey decode depth r).reader.frames =
          Function.update r.frames depth { r.frames depth with key := some (.string s) } →
        o.status → o.out = some z → (storeItem depth true o).reader.frames =
          Function.update r.frames depth (.held (vs ++ [.entry (.string s) z])) := by
      intro s z hkeyed hstatus hz
      rw [storeItem_stored hstatus, hz, hframes, hkeyed, Function.update_idem,
        Function.update_self, hframe, store_member]
    obtain ⟨g, hg⟩ := storeItem_frames depth true o
    rw [if_pos hkey, ho]
    refine ⟨_, rfl, ⟨g, by rw [hg, hframes, hf, Function.update_idem]⟩, ?_, ?_, ?_⟩
    · rw [storeItem_rest]
      exact Nat.le_trans hlen hlength
    · intro hstatus
      rw [storeItem_status] at hstatus
      obtain ⟨a, k, s, b, hr, ha, hk, hb, hkeyed⟩ := memberKey_eq hkey
      obtain ⟨t, j, ht, ⟨c, v, rfl, hc, hv⟩, hw, hout⟩ := hsound hstatus
      refine ⟨a ++ (k ++ (b ++ colon :: (c ++ v))), (s, j), ?_,
        ⟨a, k, b, c, v, rfl, ha, hk, hb, hc, hv⟩, hw, hstored _ _ hkeyed hstatus hout⟩
      rw [storeItem_rest, hr, ht]
      simp
    · intro t m rest hr ht hw hfollows
      obtain ⟨u, hu, heq⟩ := isMember_key depth hr ht
      have hrest : (memberKey decode depth r).reader.rest = u ++ rest := by
        rw [heq]
        rfl
      obtain ⟨hstatus, hout, hrest'⟩ := hcomplete u m.2 rest hrest hu hw hfollows
      refine ⟨by rwa [storeItem_status], by rwa [storeItem_rest], hstored _ _ ?_ hstatus hout⟩
      rw [heq]
      rfl
  · rw [if_neg hkey]
    refine ⟨_, rfl, ⟨f, hf⟩, hlength, fun h ↦ absurd h hkey, ?_⟩
    intro t m rest hr ht hw hfollows
    obtain ⟨u, hu, heq⟩ := isMember_key depth hr ht
    rw [heq] at hkey
    exact absurd rfl hkey

theorem closing_ne_comma (object : Bool) : comma ≠ closing object := by cases object <;> decide

theorem closing_follows (object : Bool) :
    closing object = comma ∨ closing object = closeBracket ∨ closing object = closeBrace := by
  cases object
  · exact .inr (.inl rfl)
  · exact .inr (.inr rfl)

theorem closing_plain (object : Bool) : ¬ isSpace (closing object) := by cases object <;> decide

/-- What a loop over items does: it takes the items up to the closing byte
exactly when they are there and the payload has room for them. -/
def ReadsItems (Item : List Byte → ι → Prop) (zv : ι → Zval) (W : ι → Prop) (limit depth : ℕ)
    (object : Bool) (r : Reader) (vs : List Zval) (o : Read) : Prop :=
  (∃ g, o.reader.frames = Function.update r.frames depth g) ∧
    o.reader.rest.length ≤ r.rest.length ∧
    (o.status → ∃ t is, r.rest = t ++ closing object :: o.reader.rest ∧ Separated Item t is ∧
      (∀ i ∈ is, W i) ∧ vs.length + is.length ≤ limit ∧
      o.reader.frames = Function.update r.frames depth (.held (vs ++ is.map zv))) ∧
    ∀ t is rest, r.rest = t ++ closing object :: rest → Separated Item t is → (∀ i ∈ is, W i) →
      vs.length + is.length ≤ limit → o.status ∧ o.reader.rest = rest ∧
        o.reader.frames = Function.update r.frames depth (.held (vs ++ is.map zv))

/-- When the items are there, the first is read, and then a closing byte or a
comma before the others. -/
theorem item_next
    (h : ∀ t i rest, r.rest = t ++ rest → Item t i → W i → Follows rest →
      o.status ∧ o.reader.rest = rest ∧
        o.reader.frames = Function.update r.frames depth (.held (vs ++ [zv i])))
    (hr : r.rest = t ++ closing object :: rest) (hsep : Separated Item t is)
    (hw : ∀ i ∈ is, W i) :
    o.status ∧ ∃ i is', is = i :: is' ∧
      o.reader.frames = Function.update r.frames depth (.held (vs ++ [zv i])) ∧
      (is' = [] ∧ o.reader.space.rest = closing object :: rest ∨
        ∃ u, Separated Item u is' ∧
          o.reader.space.rest = comma :: (u ++ closing object :: rest)) := by
  cases hsep with
  | @last t b i hi hb =>
    rw [List.append_assoc] at hr
    have hfollows : Follows (b ++ closing object :: rest) :=
      follows_spaces hb (by rintro c ⟨⟩; exact closing_follows object)
    obtain ⟨hstatus, hrest, hframes⟩ := h t i _ hr hi (hw i List.mem_cons_self) hfollows
    refine ⟨hstatus, i, [], rfl, hframes, .inl ⟨rfl, ?_⟩⟩
    rw [space_spaces hrest hb (by rintro c ⟨⟩; exact closing_plain object)]
  | @cons t b u i is hi hb hu =>
    rw [List.append_assoc, List.append_assoc, List.cons_append] at hr
    have hfollows : Follows (b ++ comma :: (u ++ closing object :: rest)) :=
      follows_spaces hb (by rintro c ⟨⟩; exact .inl rfl)
    obtain ⟨hstatus, hrest, hframes⟩ := h t i _ hr hi (hw i List.mem_cons_self) hfollows
    refine ⟨hstatus, i, is, rfl, hframes, .inr ⟨u, hu, ?_⟩⟩
    rw [space_spaces hrest hb (by rintro c ⟨⟩; decide)]

theorem held_update_inj {frames : Frames} {z z' : Zval}
    (h : Function.update frames depth (.held (vs ++ [z])) =
      Function.update frames depth (.held (vs ++ [z']))) : z = z' := by
  have hframe := congrFun h depth
  simp only [Function.update_self, Frame.held, Frame.mk.injEq, Option.some.injEq] at hframe
  simpa using Zval.list_injective hframe.2.2.2

theorem elements_spec (hitem : ReadsItem Item zv W depth (readItem decode child depth object))
    (fuel : ℕ) (r : Reader) (vs : List Zval) (hfuel : r.rest.length < fuel)
    (hclear : ClearFrom r.frames (depth + 1)) (hframe : r.frames depth = .held vs)
    (hlimit : vs.length ≤ limit) :
    ∃ o, elements decode limit child depth object fuel r = some o ∧
      ReadsItems Item zv W limit depth object r vs o := by
  induction fuel generalizing r vs with
  | zero => exact absurd hfuel (Nat.not_lt_zero _)
  | succ fuel ih =>
    have hcount : ((r.frames depth).payload.getD .null).numElements = vs.length := by
      rw [hframe]
      exact Zval.numElements_list vs
    simp only [elements, hcount]
    by_cases hfull : vs.length = limit
    · rw [if_pos hfull]
      refine ⟨_, rfl, ⟨r.frames depth, (Function.update_eq_self ..).symm⟩, Nat.le_refl _, nofun, ?_⟩
      intro t is rest hr hsep hw hroom
      cases hsep <;> simp only [List.length_cons] at hroom <;> omega
    rw [if_neg hfull]
    obtain ⟨o, ho, ⟨g, hg⟩, hlen, hsound, hcomplete⟩ := hitem r vs hclear hframe
    rw [ho, Option.bind_some]
    by_cases hstatus : o.status
    · rw [if_neg (not_not_intro hstatus)]
      obtain ⟨t, i, hr, ht, hwi, hframes⟩ := hsound hstatus
      obtain ⟨b, hb, hspaces⟩ := space_eq o.reader
      have hlength := Nat.le_trans (space_length o.reader) hlen
      cases hrest : o.reader.space.rest with
      | nil =>
        refine ⟨_, rfl, ⟨g, hg⟩, Nat.le_trans (space_length o.reader) hlen, nofun, ?_⟩
        intro t is rest hr hsep hw _
        obtain ⟨-, i, is', -, -, ⟨-, h⟩ | ⟨u, -, h⟩⟩ := item_next hcomplete hr hsep hw <;>
          cases hrest.symm.trans h
      | cons c rest' =>
        have hlength' : rest'.length + 1 ≤ r.rest.length := by
          rwa [hrest] at hlength
        dsimp only
        by_cases hclose : c = closing object
        · rw [if_pos hclose]
          refine ⟨_, rfl, ⟨g, hg⟩, Nat.le_of_succ_le hlength', ?_, ?_⟩
          · intro _
            refine ⟨t ++ b, [i], ?_, .last ht hspaces, by simpa using hwi, ?_, hframes⟩
            · rw [hr, hb, hrest, hclose, List.append_assoc]
            · simp only [List.length_singleton]
              omega
          · intro t is rest hr hsep hw _
            obtain ⟨-, i', is', rfl, hframes', ⟨rfl, h⟩ | ⟨u, -, h⟩⟩ :=
              item_next hcomplete hr hsep hw
            · obtain ⟨-, rfl⟩ := List.cons.inj (hrest.symm.trans h)
              exact ⟨rfl, rfl, hframes'⟩
            · obtain ⟨hc, -⟩ := List.cons.inj (hrest.symm.trans h)
              exact absurd (hc.symm.trans hclose) (closing_ne_comma object)
        rw [if_neg hclose]
        by_cases hcomma : c = comma
        · rw [if_neg (not_not_intro hcomma)]
          obtain ⟨o', ho', ⟨g', hg'⟩, hlen', hsound', hcomplete'⟩ :=
            ih { o.reader.space with rest := rest' } (vs ++ [zv i]) (by dsimp only; omega)
              (by
                show ClearFrom o.reader.frames (depth + 1)
                rw [hframes]
                exact hclear.update _)
              (by
                show o.reader.frames depth = _
                rw [hframes, Function.update_self])
              (by simp only [List.length_append, List.length_singleton]; omega)
          have hidem : ∀ f, Function.update o.reader.space.frames depth f =
              Function.update r.frames depth f := by
            intro f
            show Function.update o.reader.frames depth f = _
            rw [hframes, Function.update_idem]
          refine ⟨o', ho', ⟨g', by rw [hg', hidem]⟩, ?_, ?_, ?_⟩
          · exact Nat.le_trans hlen' (Nat.le_of_succ_le hlength')
          · intro hstatus'
            obtain ⟨u, is, hu, hsep, hw, hroom, hframes'⟩ := hsound' hstatus'
            refine ⟨t ++ (b ++ comma :: u), i :: is, ?_, .cons ht hspaces hsep, ?_, ?_, ?_⟩
            · have hu : rest' = u ++ closing object :: o'.reader.rest := hu
              rw [hr, hb, hrest, hcomma, hu]
              simp
            · simpa using ⟨hwi, hw⟩
            · simpa [Nat.add_comm, Nat.add_left_comm] using hroom
            · rw [hframes', hidem]
              simp
          · intro t' is rest hr' hsep hw hroom
            obtain ⟨-, i', is', rfl, hframes', ⟨-, h⟩ | ⟨u, hu, h⟩⟩ :=
              item_next hcomplete hr' hsep hw
            · obtain ⟨hc, -⟩ := List.cons.inj (hrest.symm.trans h)
              exact absurd hc hclose
            · obtain ⟨-, rfl⟩ := List.cons.inj (hrest.symm.trans h)
              have hsame : zv i = zv i' := held_update_inj (hframes.symm.trans hframes')
              obtain ⟨hstatus', hrest', hframes''⟩ := hcomplete' u is' rest rfl hu
                (fun i hi ↦ hw i (List.mem_cons_of_mem i' hi))
                (by simpa [Nat.add_comm, Nat.add_left_comm] using hroom)
              refine ⟨hstatus', hrest', ?_⟩
              rw [hframes'', hidem, hsame]
              simp
        · rw [if_pos hcomma]
          refine ⟨_, rfl, ⟨g, hg⟩, Nat.le_of_succ_le hlength', nofun, ?_⟩
          intro t is rest hr hsep hw _
          obtain ⟨-, i', is', -, -, ⟨-, h⟩ | ⟨u, -, h⟩⟩ := item_next hcomplete hr hsep hw
          · exact absurd (List.cons.inj (hrest.symm.trans h)).1 hclose
          · exact absurd (List.cons.inj (hrest.symm.trans h)).1 hcomma
    · rw [if_pos hstatus]
      refine ⟨_, rfl, ⟨g, hg⟩, hlen, fun h ↦ absurd h hstatus, ?_⟩
      intro t is rest hr hsep hw _
      exact absurd (item_next hcomplete hr hsep hw).1 hstatus

def IsBody (Item : List Byte → ι → Prop) (t : List Byte) (is : List ι) : Prop :=
  is = [] ∧ Spaces t ∨ Separated Item t is

/-- Items begin with space, and then with a byte that closes nothing. -/
structure Opens (Item : List Byte → ι → Prop) (object : Bool) : Prop where
  strip : ∀ t i, Item t i → ∃ w c v, t = w ++ c :: v ∧ Spaces w ∧ ¬ isSpace c ∧
    c ≠ closing object ∧ Item (c :: v) i
  pad : ∀ w t i, Spaces w → Item t i → Item (w ++ t) i

theorem Separated.strip (hopens : Opens Item object) (h : Separated Item t is) :
    ∃ w c v, t = w ++ c :: v ∧ Spaces w ∧ ¬ isSpace c ∧ c ≠ closing object ∧
      Separated Item (c :: v) is := by
  cases h with
  | last hi hb =>
    obtain ⟨w, c, v, rfl, hw, hc, hclose, hv⟩ := hopens.strip _ _ hi
    exact ⟨w, c, _, by simp, hw, hc, hclose, .last hv hb⟩
  | cons hi hb hu =>
    obtain ⟨w, c, v, rfl, hw, hc, hclose, hv⟩ := hopens.strip _ _ hi
    exact ⟨w, c, _, by simp, hw, hc, hclose, .cons hv hb hu⟩

theorem Separated.pad (hopens : Opens Item object) (hw : Spaces w) (h : Separated Item t is) :
    Separated Item (w ++ t) is := by
  cases h with
  | last hi hb =>
    rw [← List.append_assoc]
    exact .last (hopens.pad _ _ _ hw hi) hb
  | cons hi hb hu =>
    rw [← List.append_assoc]
    exact .cons (hopens.pad _ _ _ hw hi) hb hu

def containerZval (object : Bool) (payload : Zval) : Zval :=
  if object then .tagged (ascii "object") payload else payload

theorem takePayload_reader : (takePayload depth object o).reader = o.reader := by
  unfold takePayload
  dsimp only
  split <;> rfl

theorem takePayload_status : (takePayload depth object o).status = o.status := by
  unfold takePayload
  dsimp only
  split <;> rfl

theorem takePayload_out (h : o.status) (hframe : o.reader.frames depth = .held vs) :
    (takePayload depth object o).out = some (containerZval object (.list vs)) := by
  unfold takePayload
  simp only [h, if_true, hframe, Frame.held, Option.getD_some, Zval.insert_tag]
  rfl

theorem container_spec (hopens : Opens Item object)
    (hitem : ReadsItem Item zv W depth (readItem decode child depth object))
    (r : Reader) (hclear : ClearFrom r.frames depth) :
    ∃ o, container decode limit child depth object r = some o ∧
      (∃ g, o.reader.frames = Function.update r.frames depth g) ∧
      o.reader.rest.length ≤ r.rest.length ∧
      (o.status → ∃ t is, r.rest = t ++ closing object :: o.reader.rest ∧ IsBody Item t is ∧
        (∀ i ∈ is, W i) ∧ is.length ≤ limit ∧
        o.out = some (containerZval object (.list (is.map zv)))) ∧
      ∀ t is rest, r.rest = t ++ closing object :: rest → IsBody Item t is → (∀ i ∈ is, W i) →
        is.length ≤ limit → o.status ∧ o.reader.rest = rest ∧
          o.out = some (containerZval object (.list (is.map zv))) := by
  have hopened : { r.frames depth with payload := some (Zval.array []) } = Frame.held [] := by
    rw [hclear depth (Nat.le_refl depth)]
    rfl
  have he : container decode limit child depth object r =
      if (r.setFrame depth (.held [])).space.rest.head? = some (closing object) then
        some (takePayload depth object ⟨true, none,
          { (r.setFrame depth (.held [])).space with
            rest := (r.setFrame depth (.held [])).space.rest.tail }⟩)
      else
        (elements decode limit child depth object ((r.setFrame depth (.held [])).space.rest.length + 1)
          (r.setFrame depth (.held [])).space).map (takePayload depth object) := by
    unfold container
    rw [hopened]
  obtain ⟨w, hw, hspaces⟩ := space_eq (r.setFrame depth (.held []))
  have hw : r.rest = w ++ (r.setFrame depth (.held [])).space.rest := hw
  have hframes : (r.setFrame depth (.held [])).space.frames =
    Function.update r.frames depth (.held []) := rfl
  have hhead := dropWhile_head (r.setFrame depth (.held [])).rest
  have hhead : ∀ c ∈ (r.setFrame depth (.held [])).space.rest.head?, ¬ isSpace c := hhead
  rw [he]
  generalize (r.setFrame depth (.held [])).space = r₁ at hw hframes hhead ⊢
  have hlength : r₁.rest.length ≤ r.rest.length := by
    rw [hw, List.length_append]
    exact Nat.le_add_left ..
  -- where the body begins once the space before it is gone
  have hbody : ∀ t is rest, r.rest = t ++ closing object :: rest → IsBody Item t is →
      is = [] ∧ r₁.rest = closing object :: rest ∨
        ∃ u, Separated Item u is ∧ r₁.rest = u ++ closing object :: rest ∧
          r₁.rest.head? ≠ some (closing object) := by
    rintro t is rest hr (⟨rfl, ht⟩ | ht)
    · refine .inl ⟨rfl, ?_⟩
      exact spaces_unique hspaces ht hhead (by rintro c ⟨⟩; exact closing_plain object)
        (hw.symm.trans hr)
    · obtain ⟨w', c, v, rfl, hw', hc, hclose, hv⟩ := ht.strip hopens
      rw [List.append_assoc] at hr
      have hrest : r₁.rest = (c :: v) ++ closing object :: rest :=
        spaces_unique hspaces hw' hhead (by rintro d ⟨⟩; exact hc) (hw.symm.trans hr)
      refine .inr ⟨c :: v, hv, hrest, ?_⟩
      rw [hrest]
      exact fun h ↦ hclose (Option.some.inj h)
  by_cases hclose : r₁.rest.head? = some (closing object)
  · rw [if_pos hclose]
    have hrest := rest_eq_of_head hclose
    refine ⟨_, rfl, ⟨_, hframes⟩, ?_, ?_, ?_⟩
    · exact Nat.le_trans (List.length_tail ▸ Nat.sub_le _ _) hlength
    · intro _
      refine ⟨w, [], ?_, .inl ⟨rfl, hspaces⟩, by simp, Nat.zero_le _, ?_⟩
      · rw [hw, hrest]
        rfl
      · refine takePayload_out rfl ?_
        rw [hframes, Function.update_self]
        rfl
    · intro t is rest hr hb _ _
      obtain ⟨rfl, h⟩ | ⟨u, -, -, h⟩ := hbody t is rest hr hb
      · refine ⟨rfl, ?_, ?_⟩
        · show r₁.rest.tail = rest
          rw [h]
          rfl
        · refine takePayload_out rfl ?_
          rw [hframes, Function.update_self]
          rfl
      · exact absurd hclose h
  · rw [if_neg hclose]
    have hclear₁ : ClearFrom r₁.frames (depth + 1) := by
      rw [hframes]
      exact hclear.succ.update _
    have hframe₁ : r₁.frames depth = .held [] := by
      rw [hframes, Function.update_self]
    obtain ⟨o, ho, ⟨g, hg⟩, hlen, hsound, hcomplete⟩ := elements_spec hitem (r₁.rest.length + 1) r₁
      [] (Nat.lt_succ_self _) hclear₁ hframe₁ (Nat.zero_le limit)
    have hout : ∀ is, o.status →
        o.reader.frames = Function.update r₁.frames depth (.held ([] ++ List.map zv is)) →
        (takePayload depth object o).out = some (containerZval object (.list (is.map zv))) := by
      intro is hstatus h
      refine takePayload_out hstatus ?_
      rw [h, Function.update_self, List.nil_append]
    rw [ho]
    refine ⟨_, rfl, ⟨g, ?_⟩, ?_, ?_, ?_⟩
    · rw [takePayload_reader, hg, hframes, Function.update_idem]
    · rw [takePayload_reader]
      exact Nat.le_trans hlen hlength
    · rw [takePayload_status, takePayload_reader]
      intro hstatus
      obtain ⟨t, is, hr, hsep, hwi, hroom, hframes'⟩ := hsound hstatus
      refine ⟨w ++ t, is, ?_, .inr (hsep.pad hopens hspaces), hwi, ?_, hout is hstatus hframes'⟩
      · rw [hw, hr, List.append_assoc]
      · simpa using hroom
    · rw [takePayload_status, takePayload_reader]
      intro t is rest hr hb hwi hroom
      obtain ⟨rfl, h⟩ | ⟨u, hu, h, -⟩ := hbody t is rest hr hb
      · rw [h] at hclose
        exact absurd rfl hclose
      · obtain ⟨hstatus, hrest, hframes'⟩ := hcomplete u is rest h hu hwi (by simpa using hroom)
        exact ⟨hstatus, hrest, hout is hstatus hframes'⟩

end Loop

/-- A value begins with a byte that is no space and closes nothing. -/
theorem IsValue.head (h : IsValue decode t j) :
    ∃ c v, t = c :: v ∧ ¬ isSpace c ∧ c ≠ closeBracket ∧ c ≠ closeBrace := by
  have hstart : ∀ c : Byte, c = minus ∨ isDigit c ∨ c ||| 0x20 = 0x6e ∨ c ||| 0x20 = 0x69 →
      ¬ isSpace c ∧ c ≠ closeBracket ∧ c ≠ closeBrace := forall_byte (by decide)
  cases h with
  | null => exact ⟨0x6e, _, rfl, by decide⟩
  | true => exact ⟨0x74, _, rfl, by decide⟩
  | false => exact ⟨0x66, _, rfl, by decide⟩
  | number ht =>
    obtain ⟨c, v, rfl, hc⟩ := ht.starts []
    refine ⟨c, v, rfl, hstart c ?_⟩
    obtain h | h | h | h := hc
    · exact .inl h
    · exact .inr (.inl h)
    · exact .inr (.inr (.inl (word_head h)))
    · exact .inr (.inr (.inr (word_head h)))
  | string hs =>
    obtain ⟨u, rfl, -⟩ := hs
    exact ⟨doubleQuote, u, rfl, by decide⟩
  | emptyArray | array => exact ⟨openBracket, _, rfl, by decide⟩
  | emptyObject | object => exact ⟨openBrace, _, rfl, by decide⟩

theorem Spaces.append (ha : Spaces a) (hb : Spaces b) : Spaces (a ++ b) := by
  intro c hc
  obtain hc | hc := List.mem_append.mp hc
  · exact ha c hc
  · exact hb c hc

theorem opens_element : Opens (IsElement decode) false where
  strip t j h := by
    obtain ⟨a, v, rfl, ha, hv⟩ := h
    obtain ⟨c, v, rfl, hc, hclose, -⟩ := hv.head
    exact ⟨a, c, v, rfl, ha, hc, hclose, [], c :: v, rfl, nofun, hv⟩
  pad w t j hw h := by
    obtain ⟨a, v, rfl, ha, hv⟩ := h
    exact ⟨w ++ a, v, (List.append_assoc ..).symm, hw.append ha, hv⟩

theorem opens_member : Opens (IsMember decode) true where
  strip t m h := by
    obtain ⟨a, k, b, c, v, rfl, ha, hk, hb, hc, hv⟩ := h
    obtain ⟨u, rfl, hquoted⟩ := id hk
    exact ⟨a, doubleQuote, _, rfl, ha, by decide, by decide,
      [], _, b, c, v, rfl, nofun, hk, hb, hc, hv⟩
  pad w t m hw h := by
    obtain ⟨a, k, b, c, v, rfl, ha, hrest⟩ := h
    exact ⟨w ++ a, k, b, c, v, (List.append_assoc ..).symm, hw.append ha, hrest⟩

theorem elementZvals_eq (js : List Tree) : elementZvals js = js.map Tree.zval := by
  induction js with
  | nil => rfl
  | cons j js ih => rw [elementZvals, ih, List.map_cons]

theorem memberZvals_eq (ms : List (List Byte × Tree)) : memberZvals ms = ms.map memberZval := by
  induction ms with
  | nil => rfl
  | cons m ms ih => rw [memberZvals, ih, List.map_cons, memberZval]

theorem body_array {js : List Tree} (h : IsBody (IsElement decode) t js) :
    IsValue decode (openBracket :: (t ++ [closeBracket])) (.array js) := by
  obtain ⟨rfl, ht⟩ | h := h
  · exact .emptyArray ht
  · exact .array (areElements_iff.mpr h)

theorem body_object {ms : List (List Byte × Tree)} (h : IsBody (IsMember decode) t ms) :
    IsValue decode (openBrace :: (t ++ [closeBrace])) (.object ms) := by
  obtain ⟨rfl, ht⟩ | h := h
  · exact .emptyObject ht
  · exact .object (areMembers_iff.mpr h)

theorem literal_eq (h : (literal r).status) : ∃ t j, r.rest = t ++ (literal r).reader.rest ∧
    IsValue decode t j ∧ Within limit (levels + 1) j ∧ (literal r).out = some j.zval := by
  have hprefix : ∀ word : List Byte, word.isPrefixOf r.rest → r.rest = word ++ r.rest.drop word.length :=
    fun word hword ↦ (List.prefix_iff_eq_append.mp (List.isPrefixOf_iff_prefix.mp hword)).symm
  unfold literal at h ⊢
  split
  next hnull => exact ⟨_, _, hprefix _ hnull, .null, .null, rfl⟩
  split
  next htrue => exact ⟨_, _, hprefix _ htrue, .true, .bool, rfl⟩
  split
  next hfalse => exact ⟨_, _, hprefix _ hfalse, .false, .bool, rfl⟩
  next hnull htrue hfalse =>
    rw [if_neg hnull, if_neg htrue, if_neg hfalse] at h
    cases h

theorem literal_frames : (literal r).reader.frames = r.frames := by
  unfold literal
  split
  · rfl
  · split
    · rfl
    · split <;> rfl

theorem literal_length : (literal r).reader.rest.length ≤ r.rest.length := by
  unfold literal
  split
  · exact (List.drop_sublist ..).length_le
  · split
    · exact (List.drop_sublist ..).length_le
    · split
      · exact (List.drop_sublist ..).length_le
      · exact Nat.le_refl _

theorem number_frames : (number r).reader.frames = r.frames := by
  unfold number
  split <;> rfl

theorem number_length : (number r).reader.rest.length ≤ r.rest.length := by
  unfold number
  split
  · exact Nat.le_refl _
  next rest h =>
    obtain ⟨t, ht, -⟩ := numberEnd_eq h
    rw [ht, List.length_append]
    exact Nat.le_add_left ..

theorem number_eq (h : (number r).status) : ∃ t j, r.rest = t ++ (number r).reader.rest ∧
    IsValue decode t j ∧ Within limit (levels + 1) j ∧ (number r).out = some j.zval := by
  unfold number at h ⊢
  cases hend : numberEnd r.rest with
  | none =>
    rw [hend] at h
    cases h
  | some rest =>
    obtain ⟨t, ht, hnumber⟩ := numberEnd_eq hend
    refine ⟨t, .number t, ht, .number hnumber, .number, ?_⟩
    dsimp only
    rw [ht, take_sub_length, Zval.insert_tag]
    rfl

theorem number_number (hr : r.rest = t ++ rest) (ht : IsNumber t) (hrest : Follows rest) :
    number r = ⟨true, some (Tree.number t).zval, { r with rest := rest }⟩ := by
  unfold number
  rw [hr, numberEnd_number ht hrest]
  dsimp only
  rw [take_sub_length, Zval.insert_tag]
  rfl

theorem array_body {js : List Tree} (h : IsValue decode t (.array js)) :
    ∃ u, t = openBracket :: (u ++ [closeBracket]) ∧ IsBody (IsElement decode) u js := by
  cases h with
  | emptyArray hw => exact ⟨_, rfl, .inl ⟨rfl, hw⟩⟩
  | array h => exact ⟨_, rfl, .inr (areElements_iff.mp h)⟩

theorem object_body {ms : List (List Byte × Tree)} (h : IsValue decode t (.object ms)) :
    ∃ u, t = openBrace :: (u ++ [closeBrace]) ∧ IsBody (IsMember decode) u ms := by
  cases h with
  | emptyObject hw => exact ⟨_, rfl, .inl ⟨rfl, hw⟩⟩
  | object h => exact ⟨_, rfl, .inr (areMembers_iff.mp h)⟩

theorem array_reads (limit : ℕ) (hchild : ReadsValue decode limit levels (depth + 1) child)
    (hclear : ClearFrom r.frames depth) (hr : r.rest = openBracket :: rest) :
    ∃ o, container decode limit child depth false { r with rest := rest } = some o ∧
      (∃ g, o.reader.frames = Function.update r.frames depth g) ∧
      o.reader.rest.length ≤ r.rest.length ∧
      (o.status → ∃ t j, r.rest = t ++ o.reader.rest ∧ IsValue decode t j ∧
        Within limit (levels + 1) j ∧ o.out = some j.zval) ∧
      ∀ t js rest', r.rest = t ++ rest' → IsValue decode t (.array js) →
        Within limit (levels + 1) (.array js) →
        o.status ∧ o.out = some (Tree.array js).zval ∧ o.reader.rest = rest' := by
  obtain ⟨o, ho, hframes, hlen, hsound, hcomplete⟩ :=
    container_spec opens_element (readElement hchild) { r with rest := rest } hclear
  have hzval : ∀ js : List Tree,
      containerZval false (.list (js.map Tree.zval)) = (Tree.array js).zval := by
    intro js
    rw [Tree.zval, elementZvals_eq]
    rfl
  refine ⟨o, ho, hframes, ?_, ?_, ?_⟩
  · rw [hr]
    exact Nat.le_succ_of_le hlen
  · intro hstatus
    obtain ⟨t, js, ht, hbody, hw, hroom, hout⟩ := hsound hstatus
    refine ⟨_, .array js, ?_, body_array hbody, .array hroom hw, by rw [hout, hzval]⟩
    have ht : rest = t ++ closing false :: o.reader.rest := ht
    rw [hr, ht]
    simp [closing]
  · intro t js rest' ht hv hw
    obtain ⟨u, rfl, hbody⟩ := array_body hv
    have hrest : rest = u ++ closing false :: rest' := by
      have h := hr.symm.trans ht
      simpa [closing] using h
    cases hw with
    | array hroom hw =>
      obtain ⟨hstatus, hrest', hout⟩ := hcomplete u js rest' hrest hbody hw hroom
      exact ⟨hstatus, by rw [hout, hzval], hrest'⟩

theorem object_reads (limit : ℕ) (hchild : ReadsValue decode limit levels (depth + 1) child)
    (hclear : ClearFrom r.frames depth) (hr : r.rest = openBrace :: rest) :
    ∃ o, container decode limit child depth true { r with rest := rest } = some o ∧
      (∃ g, o.reader.frames = Function.update r.frames depth g) ∧
      o.reader.rest.length ≤ r.rest.length ∧
      (o.status → ∃ t j, r.rest = t ++ o.reader.rest ∧ IsValue decode t j ∧
        Within limit (levels + 1) j ∧ o.out = some j.zval) ∧
      ∀ t ms rest', r.rest = t ++ rest' → IsValue decode t (.object ms) →
        Within limit (levels + 1) (.object ms) →
        o.status ∧ o.out = some (Tree.object ms).zval ∧ o.reader.rest = rest' := by
  obtain ⟨o, ho, hframes, hlen, hsound, hcomplete⟩ :=
    container_spec opens_member (readMember hchild) { r with rest := rest } hclear
  have hzval : ∀ ms : List (List Byte × Tree),
      containerZval true (.list (ms.map memberZval)) = (Tree.object ms).zval := by
    intro ms
    rw [Tree.zval, memberZvals_eq]
    rfl
  refine ⟨o, ho, hframes, ?_, ?_, ?_⟩
  · rw [hr]
    exact Nat.le_succ_of_le hlen
  · intro hstatus
    obtain ⟨t, ms, ht, hbody, hw, hroom, hout⟩ := hsound hstatus
    refine ⟨_, .object ms, ?_, body_object hbody, .object hroom hw, by rw [hout, hzval]⟩
    have ht : rest = t ++ closing true :: o.reader.rest := ht
    rw [hr, ht]
    simp [closing]
  · intro t ms rest' ht hv hw
    obtain ⟨u, rfl, hbody⟩ := object_body hv
    have hrest : rest = u ++ closing true :: rest' := by
      have h := hr.symm.trans ht
      simpa [closing] using h
    cases hw with
    | object hroom hw =>
      obtain ⟨hstatus, hrest', hout⟩ := hcomplete u ms rest' hrest hbody hw hroom
      exact ⟨hstatus, by rw [hout, hzval], hrest'⟩

theorem dispatch_literal (hc : c = 0x6e ∨ c = 0x74 ∨ c = 0x66) (hnan : ¬ word r.rest nan)
    (hinf : ¬ word r.rest inf) :
    dispatch decode limit child depth r c rest = some (literal r) := by
  have hplain : ∀ c : Byte, c = 0x6e ∨ c = 0x74 ∨ c = 0x66 →
      c ≠ doubleQuote ∧ c ≠ minus ∧ ¬ isDigit c ∧ c ≠ openBracket ∧ c ≠ openBrace :=
    forall_byte (by decide)
  obtain ⟨hquote, hminus, hdigit, hbracket, hbrace⟩ := hplain c hc
  unfold dispatch
  rw [if_neg hquote, if_neg (by simp [hminus, hdigit, hnan, hinf]), if_neg hbracket, if_neg hbrace]

theorem dispatch_number (ht : IsNumber t) (hr : r.rest = t ++ w) (hc : r.rest = c :: rest) :
    dispatch decode limit child depth r c rest = some (number r) := by
  obtain ⟨d, u, rfl, hd⟩ := ht.starts w
  obtain ⟨rfl, -⟩ := List.cons.inj (hr.symm.trans hc)
  have hquote : ∀ d : Byte, d = minus ∨ isDigit d ∨ d ||| 0x20 = 0x6e ∨ d ||| 0x20 = 0x69 →
      d ≠ doubleQuote := forall_byte (by decide)
  have hd' : d = minus ∨ isDigit d ∨ d ||| 0x20 = 0x6e ∨ d ||| 0x20 = 0x69 := by
    obtain h | h | h | h := hd
    · exact .inl h
    · exact .inr (.inl h)
    · exact .inr (.inr (.inl (word_head h)))
    · exact .inr (.inr (.inr (word_head h)))
  unfold dispatch
  rw [if_neg (hquote d hd'), hr, if_pos hd]

theorem literal_literal (hr : r.rest = t ++ w) (hj : t = ascii "null" ∧ j = .null ∨
    t = ascii "true" ∧ j = .bool true ∨ t = ascii "false" ∧ j = .bool false) :
    literal r = ⟨true, some j.zval, { r with rest := w }⟩ ∧ ¬ word r.rest nan ∧
      ¬ word r.rest inf ∧ ∀ c ∈ r.rest.head?, c = 0x6e ∨ c = 0x74 ∨ c = 0x66 := by
  unfold literal
  rw [hr]
  obtain ⟨rfl, rfl⟩ | ⟨rfl, rfl⟩ | ⟨rfl, rfl⟩ := hj
  · exact ⟨rfl, nofun, nofun, by rintro c ⟨⟩; exact .inl rfl⟩
  · exact ⟨rfl, nofun, nofun, by rintro c ⟨⟩; exact .inr (.inl rfl)⟩
  · exact ⟨rfl, nofun, nofun, by rintro c ⟨⟩; exact .inr (.inr rfl)⟩

/-- Whichever branch is taken, what it accepts is a value. -/
theorem dispatch_sound (limit : ℕ) (hchild : ReadsValue decode limit levels (depth + 1) child)
    (hclear : ClearFrom r.frames depth) (hr : r.rest = c :: rest) :
    ∃ o, dispatch decode limit child depth r c rest = some o ∧
      (∃ g, o.reader.frames = Function.update r.frames depth g) ∧
      o.reader.rest.length ≤ r.rest.length ∧
      (o.status → ∃ t j, r.rest = t ++ o.reader.rest ∧ IsValue decode t j ∧
        Within limit (levels + 1) j ∧ o.out = some j.zval) := by
  have hsame : ∀ frames : Frames, frames = r.frames →
      ∃ g, frames = Function.update r.frames depth g :=
    fun frames h ↦ ⟨r.frames depth, by rw [h, Function.update_eq_self]⟩
  unfold dispatch
  split
  next hquote =>
    refine ⟨_, rfl, hsame _ string_frames, string_length, fun h ↦ ?_⟩
    obtain ⟨t, s, ht, hs, hout⟩ := string_eq (by rw [hr, hquote]; rfl) h
    exact ⟨t, .string s, ht, .string hs, .string, hout⟩
  split
  next => exact ⟨_, rfl, hsame _ number_frames, number_length, number_eq⟩
  split
  next hbracket =>
    obtain ⟨o, ho, hframes, hlen, hsound, -⟩ :=
      array_reads limit hchild hclear (hbracket ▸ hr)
    exact ⟨o, ho, hframes, hlen, hsound⟩
  split
  next hbrace =>
    obtain ⟨o, ho, hframes, hlen, hsound, -⟩ := object_reads limit hchild hclear (hbrace ▸ hr)
    exact ⟨o, ho, hframes, hlen, hsound⟩
  next => exact ⟨_, rfl, hsame _ literal_frames, literal_length, literal_eq⟩

theorem dispatch_open (hc : c = openBracket ∨ c = openBrace) (hr : r.rest = c :: rest) :
    dispatch decode limit child depth r c rest =
      container decode limit child depth (c == openBrace) { r with rest := rest } := by
  have hnan : ¬ word r.rest nan ∧ ¬ word r.rest inf := by
    have hplain : ∀ c : Byte, c = openBracket ∨ c = openBrace →
        c ||| 0x20 ≠ 0x6e ∧ c ||| 0x20 ≠ 0x69 := forall_byte (by decide)
    rw [hr]
    exact ⟨fun h ↦ (hplain c hc).1 (word_head h), fun h ↦ (hplain c hc).2 (word_head h)⟩
  unfold dispatch
  obtain rfl | rfl := hc
  · rw [if_neg (by decide), if_neg (by simp [hnan]; decide), if_pos rfl]
    rfl
  · rw [if_neg (by decide), if_neg (by simp [hnan]; decide), if_neg (by decide), if_pos rfl]
    rfl

/-- A value is handed to the branch that reads values of its kind. -/
theorem dispatch_complete (limit : ℕ) (hchild : ReadsValue decode limit levels (depth + 1) child)
    (hclear : ClearFrom r.frames depth) (hr : r.rest = c :: rest)
    (ho : dispatch decode limit child depth r c rest = some o) (ht : r.rest = t ++ w)
    (hv : IsValue decode t j) (hw : Within limit (levels + 1) j) (hfollows : Follows w) :
    o.status ∧ o.out = some j.zval ∧ o.reader.rest = w := by
  have hliteral : (t = ascii "null" ∧ j = .null ∨ t = ascii "true" ∧ j = .bool true ∨
      t = ascii "false" ∧ j = .bool false) → o.status ∧ o.out = some j.zval ∧ o.reader.rest = w := by
    intro h
    obtain ⟨heq, hnan, hinf, hhead⟩ := literal_literal ht h
    rw [dispatch_literal (hhead c (by rw [hr]; rfl)) hnan hinf, heq] at ho
    obtain rfl := Option.some.inj ho
    exact ⟨rfl, rfl, rfl⟩
  have harray : ∀ js, j = .array js → o.status ∧ o.out = some j.zval ∧ o.reader.rest = w := by
    rintro js rfl
    obtain ⟨u, rfl, -⟩ := array_body hv
    obtain ⟨rfl, -⟩ := List.cons.inj (ht.symm.trans hr)
    obtain ⟨o', ho', -, -, -, hcomplete⟩ := array_reads limit hchild hclear hr
    rw [dispatch_open (.inl rfl) hr] at ho
    obtain rfl := Option.some.inj (ho'.symm.trans ho)
    exact hcomplete _ js w ht hv hw
  have hobject : ∀ ms, j = .object ms → o.status ∧ o.out = some j.zval ∧ o.reader.rest = w := by
    rintro ms rfl
    obtain ⟨u, rfl, -⟩ := object_body hv
    obtain ⟨rfl, -⟩ := List.cons.inj (ht.symm.trans hr)
    obtain ⟨o', ho', -, -, -, hcomplete⟩ := object_reads limit hchild hclear hr
    rw [dispatch_open (.inr rfl) hr] at ho
    obtain rfl := Option.some.inj (ho'.symm.trans ho)
    exact hcomplete _ ms w ht hv hw
  cases id hv with
  | null => exact hliteral (.inl ⟨rfl, rfl⟩)
  | true => exact hliteral (.inr (.inl ⟨rfl, rfl⟩))
  | false => exact hliteral (.inr (.inr ⟨rfl, rfl⟩))
  | number hnumber =>
    rw [dispatch_number hnumber ht hr, number_number ht hnumber hfollows] at ho
    obtain rfl := Option.some.inj ho
    exact ⟨rfl, rfl, rfl⟩
  | @string t s hs =>
    have hquote : c = doubleQuote := by
      obtain ⟨u, rfl, -⟩ := hs
      exact (List.cons.inj (hr.symm.trans ht)).1
    unfold dispatch at ho
    rw [if_pos hquote, string_string ht hs] at ho
    obtain rfl := Option.some.inj ho
    exact ⟨rfl, rfl, rfl⟩
  | emptyArray => exact harray _ rfl
  | array => exact harray _ rfl
  | emptyObject => exact hobject _ rfl
  | object => exact hobject _ rfl

theorem nodeImpl_reads (limit : ℕ) (hchild : ReadsValue decode limit levels (depth + 1) child)
    (hclear : ClearFrom r.frames depth) :
    ∃ o, nodeImpl decode limit child depth r = some o ∧
      (∃ g, o.reader.frames = Function.update r.frames depth g) ∧
      o.reader.rest.length ≤ r.rest.length ∧
      (o.status → ∃ t j, r.rest = t ++ o.reader.rest ∧ IsElement decode t j ∧
        Within limit (levels + 1) j ∧ o.out = some j.zval) ∧
      ∀ t j rest, r.rest = t ++ rest → IsElement decode t j → Within limit (levels + 1) j →
        Follows rest → o.status ∧ o.out = some j.zval ∧ o.reader.rest = rest := by
  obtain ⟨w, hw, hspaces⟩ := space_eq r
  have hlength := space_length r
  have hvalue : ∀ t j rest, r.rest = t ++ rest → IsElement decode t j →
      ∃ v, IsValue decode v j ∧ r.space.rest = v ++ rest := by
    rintro t j rest hr ⟨a, v, rfl, ha, hv⟩
    obtain ⟨c, u, rfl, hc, -⟩ := hv.head
    rw [List.append_assoc] at hr
    exact ⟨c :: u, hv, by rw [space_spaces hr ha (by rintro d ⟨⟩; exact hc)]⟩
  unfold nodeImpl
  cases hrest : r.space.rest with
  | nil =>
    simp only [hrest]
    refine ⟨_, rfl, ⟨r.frames depth, (Function.update_eq_self ..).symm⟩, hlength, nofun, ?_⟩
    intro t j rest hr ht
    obtain ⟨v, hv, h⟩ := hvalue t j rest hr ht
    obtain ⟨c, u, rfl, -⟩ := hv.head
    cases hrest.symm.trans h
  | cons c rest =>
    simp only [hrest]
    have hclear' : ClearFrom r.space.frames depth := hclear
    obtain ⟨o, ho, hframes, hlen, hsound⟩ := dispatch_sound limit hchild hclear' hrest
    refine ⟨o, ho, hframes, Nat.le_trans hlen hlength, ?_, ?_⟩
    · intro hstatus
      obtain ⟨v, j, hv, hvalue, hwithin, hout⟩ := hsound hstatus
      refine ⟨w ++ v, j, ?_, ⟨w, v, rfl, hspaces, hvalue⟩, hwithin, hout⟩
      rw [hw, hv, List.append_assoc]
    · intro t j rest' hr ht hwithin hfollows
      obtain ⟨v, hv, h⟩ := hvalue t j rest' hr ht
      exact dispatch_complete limit hchild hclear' hrest ho h hv hwithin hfollows

/-- The reader of a node, level by level: each level reads its children with the
one below it. -/
theorem nodeBelow_reads (limit levels depth : ℕ) :
    ReadsValue decode limit levels depth (nodeBelow decode limit levels depth) := by
  induction levels generalizing depth with
  | zero =>
    intro r hclear
    refine ⟨_, rfl, rfl, Nat.le_refl _, nofun, ?_⟩
    intro t j rest _ _ hwithin
    cases hwithin
  | succ levels ih =>
    intro r hclear
    obtain ⟨o, ho, ⟨g, hg⟩, hlen, hsound, hcomplete⟩ := nodeImpl_reads limit (ih (depth + 1)) hclear
    have he : nodeBelow decode limit (levels + 1) depth r =
        some { o with reader := o.reader.setFrame depth .clear } := by
      rw [nodeBelow, ho, Option.map_some]
    refine ⟨_, he, ?_, hlen, hsound, hcomplete⟩
    show Function.update o.reader.frames depth .clear = r.frames
    rw [hg, hclear.update_clear]

theorem finish_frames (depth : ℕ) (o : Read) : ∃ g, (finish depth o).reader.frames =
    Function.update o.reader.frames depth g := by
  unfold finish
  dsimp only
  split
  · exact ⟨_, rfl⟩
  · split
    · exact ⟨_, rfl⟩
    · exact ⟨_, Function.update_idem ..⟩

theorem finish_status (h : (finish depth o).status) :
    o.status ∧ o.reader.rest.dropWhile isSpace = [] := by
  unfold finish at h
  dsimp only at h
  split at h
  · cases h
  next hstatus =>
    split at h
    · cases h
    next hrest => exact ⟨not_not.mp hstatus, not_not.mp hrest⟩

theorem finish_done {z : Zval} (hstatus : o.status) (hout : o.out = some z)
    (hrest : Spaces o.reader.rest) :
    (finish depth o).status ∧ (finish depth o).out = some (.tagged (ascii "JSON") z) := by
  have hend : o.reader.rest.dropWhile isSpace = [] := List.dropWhile_eq_nil_iff.mpr hrest
  have hspace : ∀ f, (o.reader.setFrame depth f).space.rest = [] := fun _ ↦ hend
  unfold finish
  dsimp only
  rw [if_neg (not_not_intro hstatus), if_neg (not_not_intro (hspace _))]
  refine ⟨rfl, ?_⟩
  simp [Reader.setFrame, hout, Zval.insert_tag]

theorem nativeImpl_reads (decode : List Byte → Option (List Byte)) (limit : ℕ)
    (hclear : ClearFrom r.frames depth) :
    ∃ o, nativeImpl decode limit depth r = some o ∧
      (∃ g, o.reader.frames = Function.update r.frames depth g) ∧
      (o.status → ∃ j, Document decode r.rest j ∧ Within limit (valueDepth - (depth + 1)) j) ∧
      ∀ j, Document decode r.rest j → Within limit (valueDepth - (depth + 1)) j →
        o.status ∧ o.out = some (.tagged (ascii "JSON") j.zval) := by
  have hnode : ReadsValue decode limit (valueDepth - (depth + 1)) (depth + 1)
    (node decode limit (depth + 1)) :=
    nodeBelow_reads limit (valueDepth - (depth + 1)) (depth + 1)
  obtain ⟨o, ho, hframes, -, hsound, hcomplete⟩ := hnode r hclear.succ
  obtain ⟨g, hg⟩ := finish_frames depth o
  unfold nativeImpl
  rw [ho]
  refine ⟨_, rfl, ⟨g, by rw [hg, hframes]⟩, ?_, ?_⟩
  · intro hstatus
    obtain ⟨hstatus, hrest⟩ := finish_status hstatus
    obtain ⟨t, j, hr, ⟨a, v, rfl, ha, hv⟩, hwithin, -⟩ := hsound hstatus
    refine ⟨j, ⟨a, v, o.reader.rest, ?_, ha, hv, List.dropWhile_eq_nil_iff.mp hrest⟩, hwithin⟩
    rw [hr, List.append_assoc]
  · rintro j ⟨a, v, b, hr, ha, hv, hb⟩ hwithin
    have hfollows : Follows b := by
      have h := follows_spaces (u := []) hb nofun
      rwa [List.append_nil] at h
    rw [← List.append_assoc] at hr
    obtain ⟨hstatus, hout, hrest⟩ := hcomplete _ j b hr ⟨a, v, rfl, ha, hv⟩ hwithin hfollows
    exact finish_done hstatus hout (hrest ▸ hb)

theorem native_reads (limit : ℕ) (hclear : ClearFrom r.frames depth) :
    ∃ o, native decode limit depth r = some o ∧ o.reader.frames = r.frames ∧
      (o.status → ∃ j, Document decode r.rest j ∧ Within limit (valueDepth - (depth + 1)) j) ∧
      ∀ j, Document decode r.rest j → Within limit (valueDepth - (depth + 1)) j →
        o.status ∧ o.out = some (.tagged (ascii "JSON") j.zval) := by
  unfold native
  split
  next hdepth =>
    refine ⟨_, rfl, rfl, nofun, fun j _ hwithin ↦ ?_⟩
    have hzero : valueDepth - (depth + 1) = 0 := by omega
    rw [hzero] at hwithin
    cases hwithin
  next =>
    obtain ⟨o, ho, ⟨g, hg⟩, hsound, hcomplete⟩ := nativeImpl_reads decode limit hclear
    rw [ho]
    refine ⟨_, rfl, ?_, hsound, hcomplete⟩
    show Function.update o.reader.frames depth .clear = r.frames
    rw [hg, hclear.update_clear]

/-- The frames of a conversion that has got to `depth`: those below are in use. -/
def framesBelow (used : Frames) (depth : ℕ) : Frames := fun i ↦ if i < depth then used i else .clear

theorem clearFrom_framesBelow (used : Frames) (depth : ℕ) :
    ClearFrom (framesBelow used depth) depth :=
  fun _ hi ↦ if_neg (Nat.not_lt.mpr hi)

/-- The native reader accepts exactly the JSON texts within its limits, wherever
in a value the text stands. What it builds stands for one value only; where it
fails, it returns nothing; and in both cases it leaves the frames as it found
them. -/
theorem native_json (decode : List Byte → Option (List Byte)) (limit depth : ℕ) (text : List Byte)
    (used : Frames) (message : Option String) :
    ∃ o, native decode limit depth ⟨text, framesBelow used depth, message⟩ = some o ∧
      (o.status ↔ ∃ j, Document decode text j ∧ Within limit (valueDepth - (depth + 1)) j) ∧
      (∀ j, Document decode text j → Within limit (valueDepth - (depth + 1)) j →
        o.converted = some (.tagged (ascii "JSON") j.zval)) ∧
      (¬ o.status → o.converted = none) ∧
      o.reader.frames = framesBelow used depth ∧
      ∀ j j' : Tree, j.zval = j'.zval → j = j' := by
  have hclear := clearFrom_framesBelow used depth
  obtain ⟨o, ho, hframes, hsound, hcomplete⟩ :=
    native_reads (r := ⟨text, framesBelow used depth, message⟩) limit hclear
  refine ⟨o, ho, ⟨hsound, ?_⟩, ?_, ?_, hframes, Tree.zval_injective⟩
  · rintro ⟨j, hdocument, hwithin⟩
    exact (hcomplete j hdocument hwithin).1
  · intro j hdocument hwithin
    obtain ⟨hstatus, hout⟩ := hcomplete j hdocument hwithin
    rw [Read.converted, if_pos hstatus, hout]
  · intro hstatus
    rw [Read.converted, if_neg hstatus]

end PdoDuckdb.Value.Json
