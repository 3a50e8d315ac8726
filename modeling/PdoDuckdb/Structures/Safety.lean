import PdoDuckdb.Structures.NativeWalk

namespace PdoDuckdb.Structures

open Library Library.Exits Value
open Cells (Memory)

section Tagged

variable {b t w : Built} {name : List Byte} {entries : List (Key × Built)}

theorem find_perm (entries : List (Key × Built)) (q : Key × Built → Bool) :
    (entryHandles entries).Perm
      (held ((entries.find? q).map Prod.snd) ++ entryHandles (entries.eraseP q)) := by
  induction entries with
  | nil => exact List.Perm.refl []
  | cons e entries ih =>
    cases hq : q e with
    | true =>
      rw [List.find?_cons_of_pos hq, List.eraseP_cons_of_pos hq]
      exact List.Perm.refl _
    | false =>
      rw [List.find?_cons_of_neg (by simp [hq]), List.eraseP_cons_of_neg (by simp [hq])]
      refine (ih.append_left e.2.handles).trans ?_
      simp only [entryHandles]
      rw [← List.append_assoc, ← List.append_assoc]
      exact List.perm_append_comm.append_right _

theorem without_perm (b : Built) (name : List Byte) :
    b.handles.Perm (held (b.find name) ++ (b.without name).handles) := by
  cases b with
  | array h entries => exact ((find_perm entries _).cons h).trans List.perm_middle.symm
  | null => exact List.Perm.refl _
  | bool => exact List.Perm.refl _
  | long => exact List.Perm.refl _
  | double => exact List.Perm.refl _
  | string => exact List.Perm.refl _
  | object => exact List.Perm.refl _

theorem find_zval (b : Built) (name : List Byte) :
    (b.find name).map Built.zval = findZval b.zval name := by
  cases b with
  | array h entries =>
    simp only [Built.find, Built.zval, findZval]
    induction entries with
    | nil => rfl
    | cons e entries ih =>
      by_cases he : e.1 = .name name
      · simp [entryZvals, he]
      · simp [entryZvals, he, ih]
  | null => rfl
  | bool => rfl
  | long => rfl
  | double => rfl
  | string => rfl
  | object => rfl

def withoutZval (v : Zval) (name : List Byte) : Zval :=
  match v with
  | .array entries => .array (entries.eraseP fun e ↦ e.1 = .name name)
  | v => v

theorem zval_without (b : Built) (name : List Byte) :
    (b.without name).zval = withoutZval b.zval name := by
  cases b with
  | array h entries =>
    simp only [Built.without, Built.zval, withoutZval]
    congr 1
    induction entries with
    | nil => rfl
    | cons e entries ih =>
      by_cases he : e.1 = .name name
      · rw [List.eraseP_cons_of_pos (by simp [he]), entryZvals, List.eraseP_cons_of_pos (by simp [he])]
      · rw [List.eraseP_cons_of_neg (by simp [he]), entryZvals, entryZvals,
          List.eraseP_cons_of_neg (by simp [he]), ih]
  | null => rfl
  | bool => rfl
  | long => rfl
  | double => rfl
  | string => rfl
  | object => rfl

/-- Moving one entry away leaves the others where they are. -/
theorem find_without {other : List Byte} (hne : other ≠ name) (v : Zval) :
    findZval (withoutZval v name) other = findZval v other := by
  cases v with
  | array entries =>
    simp only [findZval, withoutZval]
    congr 1
    induction entries with
    | nil => rfl
    | cons e entries ih =>
      by_cases he : e.1 = .name name
      · have hother : ¬ e.1 = .name other := fun h ↦ hne (Key.name.inj (h.symm.trans he))
        rw [List.eraseP_cons_of_pos (by simp [he]), List.find?_cons_of_neg (by simp [hother])]
      · rw [List.eraseP_cons_of_neg (by simp [he]), List.find?_cons, List.find?_cons, ih]
  | null => rfl
  | bool => rfl
  | long => rfl
  | double => rfl
  | string => rfl
  | object => rfl

theorem isTagged_zval (b : Built) :
    isTagged b = true ↔ ∃ t x, findZval b.zval (ascii "type") = some (.string t) ∧
      findZval b.zval (ascii "value") = some x := by
  rw [← find_zval, ← find_zval]
  unfold isTagged
  cases b.find (ascii "type") with
  | none => simp
  | some type =>
    cases type <;> cases b.find (ascii "value") <;> simp [Built.zval]

end Tagged

section Columns

variable {G : Setting} {p : Prop} {f : Place → Option Zval} {g : Part → Bool} {B : Bridge} {v : Zval}

/-- A conversion begins with nothing in its frames. -/
theorem ready_empty (depth : ℕ) : Ready (fun _ ↦ none) (fun _ ↦ false) depth .out where
  zvals := fun _ _ _ _ ↦ rfl
  handles := fun _ _ _ _ ↦ rfl
  mem := List.mem_cons_self
  apart := fun i _ ↦ by simp [zvalSlots]
  empty := rfl

theorem ready_start : Ready (fun _ ↦ none) (fun _ ↦ false) 0 .out := ready_empty 0

/-- What the first frame and `out` hold, with nothing elsewhere. -/
abbrev Column (G : Setting) (f : Place → Option Zval) (g : Part → Bool) : Slots × Surroundings → Prop :=
  At G (fun _ ↦ none) (fun _ ↦ false) .out 0 f g

theorem zero_lt_valueDepth : 0 < valueDepth := by decide

theorem moveEntry_at {za : Zval} (hza : f .payload = some za) (a : Place) (hne : a ≠ .payload)
    (ha : f a = none) (name : List Byte) :
    Meets (Column G f g) (moveEntry name (a.slot .out 0))
      (fun _ ↦ Column G
        (Function.update (Function.update f .payload (some (withoutZval za name))) a (findZval za name)) g)
      (Lost G p) := by
  intro s hs
  have hr := ready_start
  have hpayload : (.payload 0) ∈ allSlots := hr.slot_mem zero_lt_valueDepth .payload
  have hmem := hr.slot_mem zero_lt_valueDepth a
  obtain ⟨b, hb, rfl⟩ := hs.built ((hr.injective.extend_apply f _ .payload).trans hza)
  have hempty := hs.empty ((hr.injective.extend_apply f _ a).trans ha)
  have hslot : a.slot .out 0 ≠ .payload 0 := fun h ↦ hne (hr.injective h)
  unfold moveEntry
  change s.1.zvals (.payload 0) = some b at hb
  rw [hb]
  refine ⟨⟨hs.balanced.memory, hs.balanced.bridge, ?_, hs.balanced.handles, hs.balanced.accesses⟩,
    fun i ↦ ?_, hs.occupied⟩
  · refine hs.balanced.zvals.perm (List.Perm.append_right G.zvals ?_)
    have htake := zvalsHeld_take (z := s.1.zvals) hpayload
    rw [hb] at htake
    have hupdate : (zvalsHeld (Function.update s.1.zvals (.payload 0) (some (b.without name)))).Perm _ :=
      zvalsHeld_update hpayload
    have hfill : (zvalsHeld (Function.update (Function.update s.1.zvals (.payload 0)
        (some (b.without name))) (a.slot .out 0) (b.find name))).Perm _ :=
      zvalsHeld_fill hmem ((Function.update_of_ne hslot _ _).trans hempty)
    refine htake.trans (.trans ?_ (hfill.trans (hupdate.append_left _)).symm)
    rw [← List.append_assoc]
    exact (without_perm b name).append_right _
  · rw [← update_extend hr.injective, ← update_extend hr.injective, ← find_zval, ← zval_without]
    exact values_update (fun o ↦ values_update (y := some (b.without name)) hs.values o) i

theorem stored_wrapped (type v : Zval) :
    stored (stored (.object []) (ascii "type") type) (ascii "value") v = wrappedZval type v := by
  have hne : ascii "type" ≠ ascii "value" := by decide
  simp [stored, Zval.update, wrappedZval, hne, Zval.ofName_type, Zval.ofName_value]

/-- The object, where `out` is free and the first frame has a type and a value. -/
theorem wrapObject_at {type : Zval} (hout : f .out = none) (htype : f .key = some type)
    (hv : f .item = some v) :
    Meets (Column G f g) wrapObject
      (Filled G (fun _ ↦ none) (fun _ ↦ false) .out 0 fun _ w ↦ w = wrappedZval type v) (Lost G p) := by
  have hr := ready_start
  have hd := zero_lt_valueDepth
  unfold wrapObject
  refine Meets.bind (newZval_at (x := .object []) hr hd .out hout fun _ ↦ ⟨rfl, rfl⟩) fun _ ↦ ?_
  have htype' : Function.update f .out (some (.object [])) .key = some type := htype
  refine Meets.bind (insert_at hr hd .out .key nofun rfl rfl htype' (ascii "type")) fun _ ↦ ?_
  have hv' : Function.update (Function.update (Function.update f .out (some (.object []))) .key none) .out
      (some (stored (.object []) (ascii "type") type)) .item = some v := hv
  refine (insert_at hr hd .out .item nofun rfl rfl hv' (ascii "value")).post fun _ s hs ↦ ?_
  rw [stored_wrapped] at hs
  exact ⟨_, rfl, _, _, rfl, hs⟩

/-- A value in `out`, and nothing else but in the frame's handles. -/
def only (v : Zval) : Place → Option Zval := Function.update (fun _ ↦ none) .out (some v)

theorem wrapEntries_at {t : List Byte} {za x : Zval} (hza : f .payload = some za) (hout : f .out = none)
    (hkey : f .key = none) (hitem : f .item = none)
    (ht : findZval za (ascii "type") = some (.string t)) (hx : findZval za (ascii "value") = some x) :
    Meets (Column G f g) wrapEntries
      (Filled G (fun _ ↦ none) (fun _ ↦ false) .out 0 fun _ w ↦ w = wrappedZval (.string t) x)
      (Lost G p) := by
  have hx' : findZval (withoutZval za (ascii "type")) (ascii "value") = some x := by
    rw [find_without (by decide), hx]
  let moved := Function.update (Function.update f .payload (some (withoutZval za (ascii "type")))) .key
    (findZval za (ascii "type"))
  have hpayload : moved .payload = some (withoutZval za (ascii "type")) := rfl
  have hitem' : moved .item = none := hitem
  unfold wrapEntries
  refine Meets.bind (moveEntry_at hza .key nofun hkey (ascii "type")) fun _ ↦ ?_
  refine Meets.bind (moveEntry_at hpayload .item nofun hitem' (ascii "value")) fun _ ↦ ?_
  exact wrapObject_at hout ht hx'

theorem wrapTagged_at (v : Zval) :
    Meets (Column G (only v) g) wrapTagged
      (Filled G (fun _ ↦ none) (fun _ ↦ false) .out 0 fun _ w ↦ taggedColumn v = some w)
      (Lost G (taggedColumn v = none)) := by
  have hr := ready_start
  unfold wrapTagged
  refine Meets.bind (moveZval_at hr zero_lt_valueDepth .out .payload nofun rfl) fun _ s hs ↦ ?_
  obtain ⟨b, hb, hbv⟩ := hs.built (hr.injective.extend_apply _ _ .payload)
  change s.1.zvals (.payload 0) = some b at hb
  change b.zval = v at hbv
  unfold wrapPayload
  rw [hb]
  split_ifs with htagged
  · obtain ⟨t, x, ht, hx⟩ := (isTagged_zval b).mp htagged
    rw [hbv] at ht hx
    have hwrapped : taggedColumn v = some (wrappedZval (.string t) x) := by
      unfold taggedColumn
      rw [ht, hx]
    have hrun := wrapEntries_at (p := taggedColumn v = none) rfl rfl rfl rfl ht hx s hs
    refine hrun.mono (fun _ s ↦ ?_) fun _ _ h ↦ h
    rintro ⟨w, rfl, hw⟩
    exact ⟨_, hwrapped, hw⟩
  · refine fail_meets _ ?_ s hs
    unfold taggedColumn
    split
    next t x ht hx =>
      rw [← hbv] at ht hx
      exact absurd ((isTagged_zval b).mpr ⟨t, x, ht, hx⟩) htagged
    next => rfl

theorem wrapDeclared_at (hbytes : g (.bytes false) = false) (vec : Vector) (v : Zval) :
    Meets (Column G (only v) g) (wrapDeclared B vec)
      (Filled G (fun _ ↦ none) (fun _ ↦ false) .out 0 fun _ w ↦
        w = wrappedZval (.string (B.declaration vec)) v) (Lost G p) := by
  have hr := ready_start
  have hd := zero_lt_valueDepth
  unfold wrapDeclared
  refine Meets.bind (moveZval_at hr hd .out .payload nofun rfl) fun _ ↦ ?_
  refine Meets.bind (take_at hd (.bytes false) hbytes) fun _ ↦ ?_
  refine Meets.bind (setString_at hr hd .key rfl (B.declaration vec)) fun _ ↦ ?_
  refine Meets.bind (moveZval_at hr hd .payload .item nofun rfl) fun _ ↦ ?_
  exact wrapObject_at rfl rfl rfl

/-- What wrapping a column makes of the value in `out`. -/
def Wraps (G : Setting) (v : Zval) (g : Part → Bool) (r : Option Zval) (m : Reading PUnit) : Prop :=
  Meets (Column G (only v) g) m
    (Filled G (fun _ ↦ none) (fun _ ↦ false) .out 0 fun _ w ↦ r = some w) (Lost G (r = none))

theorem wrapValue_at (vec : Vector) (v : Zval) :
    Wraps G v (fun _ ↦ false) (wrappedColumn B vec v) (wrapValue B vec) := by
  have hd := zero_lt_valueDepth
  have hpure (g : Part → Bool) : Wraps G v g (some v) (pure ⟨⟩) :=
    Meets.pure fun s hs ↦ ⟨v, rfl, _, _, rfl, hs⟩
  have hdeclared : Wraps G v typed (some (wrappedZval (.string (B.declaration vec)) v))
      (wrapDeclared B vec) := by
    refine (wrapDeclared_at rfl vec v).post fun _ s ↦ ?_
    rintro ⟨w, rfl, hw⟩
    exact ⟨_, rfl, hw⟩
  refine Meets.bind (takeType_at hd rfl) fun _ ↦ ?_
  cases vec with
  | leaf type validity data =>
    cases type with
    | variant => exact wrapTagged_at v
    | varchar typeAlias =>
      refine Meets.bind (take_at hd (.bytes false) rfl) fun _ ↦ ?_
      rw [wrappedColumn]
      split_ifs
      · exact wrapTagged_at v
      · exact hpure _
    | sqlNull => exact hpure _
    | boolean => exact hpure _
    | integer => exact hpure _
    | float => exact hpure _
    | double => exact hpure _
    | blob => exact hpure _
    | geometry => exact hpure _
    | other => exact hpure _
  | list => exact hdeclared
  | map => exact hdeclared
  | array => exact hdeclared
  | struct => exact hdeclared
  | union => exact hdeclared

theorem wrapColumn_at (vec : Vector) (v : Zval) :
    Wraps G v (fun _ ↦ false) (columnZval B vec v) (wrapColumn B vec) := by
  intro s hs
  obtain ⟨b, hb, hbv⟩ := hs.built (ready_start.injective.extend_apply _ _ .out)
  change s.1.zvals .out = some b at hb
  change b.zval = v at hbv
  subst hbv
  unfold wrapColumn
  rw [hb]
  cases b with
  | null => exact ⟨.null, rfl, _, _, rfl, hs⟩
  | bool => exact wrapValue_at vec _ s hs
  | long => exact wrapValue_at vec _ s hs
  | double => exact wrapValue_at vec _ s hs
  | string => exact wrapValue_at vec _ s hs
  | array => exact wrapValue_at vec _ s hs
  | object => exact wrapValue_at vec _ s hs

end Columns

section Conversions

variable {G : Setting} {s : Slots × Surroundings}

theorem foldl_clearFrame (l : List ℕ) (s : Slots × Surroundings) :
    (∀ o, (l.foldl (fun s depth ↦ clearFrame depth s) s).1.zvals o =
      if ∃ i ∈ l, o ∈ zvalSlots i then none else s.1.zvals o) ∧
    ∀ h, (l.foldl (fun s depth ↦ clearFrame depth s) s).1.handles h =
      if ∃ i ∈ l, h ∈ handleSlots i then none else s.1.handles h := by
  induction l generalizing s with
  | nil => simp
  | cons i l ih =>
    have h := ih (clearFrame i s)
    rw [List.foldl_cons]
    refine ⟨fun o ↦ ?_, fun o ↦ ?_⟩
    · rw [h.1 o]
      by_cases hl : ∃ j ∈ l, o ∈ zvalSlots j
      · rw [if_pos hl, if_pos (by simpa using Or.inr hl)]
      · rw [if_neg hl]
        by_cases hi : o ∈ zvalSlots i <;> simp_all [clearFrame]
    · rw [h.2 o]
      by_cases hl : ∃ j ∈ l, o ∈ handleSlots j
      · rw [if_pos hl, if_pos (by simpa using Or.inr hl)]
      · rw [if_neg hl]
        by_cases hi : o ∈ handleSlots i <;> simp_all [clearFrame]

theorem clearContext_balanced (hs : Balanced G [] s) : Balanced G [] (clearContext s) := by
  suffices h : ∀ l : List ℕ, (∀ i ∈ l, i < valueDepth) → ∀ s, Balanced G [] s →
      Balanced G [] (l.foldl (fun s depth ↦ clearFrame depth s) s) from
    h _ (fun _ hi ↦ List.mem_range.mp hi) s hs
  intro l
  induction l with
  | nil => exact fun _ _ hs ↦ hs
  | cons i l ih =>
    intro hl s hs
    exact ih (fun j hj ↦ hl j (List.mem_cons_of_mem i hj)) _
      (clearFrame_balanced (hl i List.mem_cons_self) hs)

/-- A cleared context leaves what is in `out`. -/
theorem clearContext_held (hs : Balanced G [] s) :
    (clearContext s).1.zvals .out = s.1.zvals .out ∧
      (clearContext s).2.zvals.Owes (held (s.1.zvals .out) ++ G.zvals) ∧
      (clearContext s).2.handles.Owes G.handles := by
  have hclear := foldl_clearFrame (List.range valueDepth) s
  have hb := clearContext_balanced hs
  have hout : (clearContext s).1.zvals .out = s.1.zvals .out := by
    refine (hclear.1 .out).trans (if_neg ?_)
    rintro ⟨i, -, hi⟩
    simp [zvalSlots] at hi
  have hzvals : zvalsHeld (clearContext s).1.zvals = held (s.1.zvals .out) := by
    unfold zvalsHeld allSlots
    rw [List.flatMap_cons, hout]
    refine (congrArg _ (List.flatMap_eq_nil_iff.mpr fun o ho ↦ ?_)).trans (List.append_nil _)
    have hcleared : (clearContext s).1.zvals o = none :=
      (hclear.1 o).trans (if_pos (List.mem_flatMap.mp ho))
    rw [hcleared]
    rfl
  have hhandles : handlesHeld (clearContext s).1.handles = [] := by
    refine List.flatMap_eq_nil_iff.mpr fun h hh ↦ ?_
    have hcleared : (clearContext s).1.handles h = none :=
      (hclear.2 h).trans (if_pos (List.mem_flatMap.mp hh))
    rw [hcleared]
    rfl
  have howes := hb.zvals
  have hhowes := hb.handles
  rw [hzvals, List.nil_append] at howes
  rw [hhandles, List.nil_append] at hhowes
  exact ⟨hout, howes, hhowes⟩

/-- What a conversion leaves: a value in `out`, or nothing. -/
structure Left (G : Setting) (q : Zval → Prop) (p : Prop)
    (r : Except Halt Unit × (Slots × Surroundings)) : Prop where
  accesses : ∀ access ∈ r.2.2.accesses, G.touched access.1 access.2
  zvals : r.2.2.zvals.Owes (held (r.2.1.zvals .out) ++ G.zvals)
  handles : r.2.2.handles.Owes G.handles
  out : match r.1 with
    | .ok _ => ∃ b, r.2.1.zvals .out = some b ∧ q b.zval
    | .error e => ¬ e.isFault ∧ r.2.1.zvals .out = none ∧ (G.Granted → p)

theorem dropOut_out (s : Slots × Surroundings) : (dropOut s).1.zvals .out = none := by
  simp [dropOut]

theorem endConversion_left {q : Zval → Prop} {p : Prop} {r : Except Halt Unit × (Slots × Surroundings)}
    (hr : Ends (Filled G (fun _ ↦ none) (fun _ ↦ false) .out 0 fun _ v ↦ q v) (Lost G p) r) :
    Left G q p (endConversion r) := by
  match r, hr with
  | (.ok _, s), ⟨v, hq, f, g, hf, hs⟩ =>
    obtain ⟨hout, hzvals, hhandles⟩ := clearContext_held hs.balanced
    obtain ⟨b, hb, rfl⟩ := hs.built ((ready_start.injective.extend_apply f _ .out).trans hf)
    change s.1.zvals .out = some b at hb
    refine ⟨(clearContext_balanced hs.balanced).accesses, ?_, hhandles, b, hout.trans hb, hq⟩
    rw [← hout] at hzvals
    exact hzvals
  | (.error e, s), hlost =>
    obtain ⟨hout, hzvals, hhandles⟩ := clearContext_held hlost.balanced
    refine ⟨(clearContext_balanced hlost.balanced).accesses, ?_, hhandles, hlost.sound, dropOut_out _,
      hlost.granted⟩
    show (dropOut (clearContext s)).2.zvals.Owes (held ((dropOut (clearContext s)).1.zvals .out) ++ G.zvals)
    rw [dropOut_out]
    refine Custody.Owes.releaseAll ?_
    rw [← hout] at hzvals
    exact hzvals

def convertedZval (B : Bridge) (column : Bool) (vec : Vector) (row rowCount : ℕ) : Option Zval :=
  (nativeZval B valueDepth vec row rowCount).bind fun v ↦ if column then columnZval B vec v else some v

variable {B : Bridge} {column : Bool} {vec : Vector} {row rowCount : ℕ} {c : Surroundings}
  {zvals handles : List Handle}

theorem holds_only (v : Zval) :
    Holds G (Function.update (fun _ ↦ none) .out (some v)) (fun _ ↦ false) =
      Column G (only v) fun _ ↦ false := by
  have hr := ready_start
  have hzvals : Function.update (fun _ ↦ none) Slot.out (some v) =
      Function.extend (Place.slot .out 0) (only v) fun _ ↦ none := by
    have hupdate := update_extend hr.injective (fun _ ↦ (none : Option Zval)) (fun _ ↦ none) .out (some v)
    rwa [extend_const hr.injective _ fun _ ↦ rfl] at hupdate
  rw [hzvals]
  unfold Column At
  rw [extend_const (Part.slot_injective 0) _ fun _ ↦ rfl]

theorem convert_meets (hG : ∀ path i, Vector.Touched vec row path i → G.touched path i)
    (hsized : vec.Sized rowCount) (hcount : rowCount < 0x10000000000000000) :
    Meets (Holds G (fun _ ↦ none) fun _ ↦ false)
      (do nativeBelow B valueDepth 0 [] vec row rowCount .out
          if column then wrapColumn B vec else pure ⟨⟩)
      (Filled G (fun _ ↦ none) (fun _ ↦ false) .out 0
        fun _ v ↦ vec.Plain → convertedZval B column vec row rowCount = some v)
      (Lost G (vec.Plain → convertedZval B column vec row rowCount = none)) := by
  unfold convertedZval
  have hwalk := nativeBelow_walks (B := B) hG valueDepth 0 (Nat.zero_add _) [] vec row rowCount hsized
    hcount .root _ _ .out ready_start
  refine Meets.bind (lost_mono hwalk fun h hp ↦ by rw [h hp]; rfl) fun _ ↦ Meets.chosen fun v hv ↦ ?_
  rw [holds_only]
  cases column with
  | false => exact Meets.pure fun s hs ↦ ⟨v, fun hp ↦ by rw [hv hp]; rfl, _, _, rfl, hs⟩
  | true =>
    refine (wrapColumn_at vec v).mono (fun _ hs ↦ hs) (fun _ s ↦ ?_) fun _ _ hs ↦ hs.imp fun h hp ↦ ?_
    · rintro ⟨w, hw, hs⟩
      exact ⟨w, fun hp ↦ by rw [hv hp]; exact hw, hs⟩
    · rw [hv hp]
      exact h

theorem holds_start (hz : c.zvals.Owes zvals) (hh : c.handles.Owes handles) (hc : c.accesses = [])
    (touched : List ℕ → ℕ → Prop) :
    Holds ⟨c.memory, c.bridge, zvals, handles, touched⟩ (fun _ ↦ none) (fun _ ↦ false)
      (Slots.empty, c) where
  balanced := by
    refine ⟨rfl, rfl, ?_, ?_, ?_⟩
    · have hnone : zvalsHeld Slots.empty.zvals = [] := List.flatMap_eq_nil_iff.mpr fun _ _ ↦ rfl
      rw [hnone]
      exact hz
    · have hnone : handlesHeld Slots.empty.handles = [] := List.flatMap_eq_nil_iff.mpr fun _ _ ↦ rfl
      rw [hnone]
      exact hh
    · show ∀ access ∈ c.accesses, _
      rw [hc]
      exact fun _ h ↦ absurd h List.not_mem_nil
  values := fun _ ↦ rfl
  occupied := fun _ ↦ rfl

section Runs

variable (hsized : vec.Sized rowCount) (hcount : rowCount < 0x10000000000000000)
  (hz : c.zvals.Owes zvals) (hh : c.handles.Owes handles) (hc : c.accesses = [])
include hsized hcount hz hh hc

theorem valueConvert_left (B : Bridge) (column : Bool) (row : ℕ) :
    Left ⟨c.memory, c.bridge, zvals, handles, Vector.Touched vec row⟩
      (fun v ↦ vec.Plain → convertedZval B column vec row rowCount = some v)
      (vec.Plain → convertedZval B column vec row rowCount = none)
      (valueConvert B column vec row rowCount c) := by
  have hstart := holds_start (c := c.called) hz hh hc (Vector.Touched vec row)
  unfold valueConvert
  by_cases hmem : c.memory c.calls = .granted
  · rw [if_pos hmem]
    exact endConversion_left (convert_meets (fun _ _ h ↦ h) hsized hcount _ hstart)
  · rw [if_neg hmem]
    refine ⟨hstart.balanced.accesses, hz, hh, nofun, rfl, fun hG ↦ absurd (hG.1 c.calls) hmem⟩

/-- Where memory is granted and the bridge does not fail, a conversion without
JSON texts gives out what it should, or fails where there is nothing to give. -/
theorem valueConvert_zval (hmemory : ∀ n, c.memory n = .granted) (hbridge : ∀ n, c.bridge n = none)
    (hplain : vec.Plain) (B : Bridge) (column : Bool) (row : ℕ) :
    ((valueConvert B column vec row rowCount c).2.1.zvals .out).map Built.zval =
      convertedZval B column vec row rowCount := by
  have hout := (valueConvert_left hsized hcount hz hh hc B column row).out
  revert hout
  cases (valueConvert B column vec row rowCount c).1 with
  | ok _ =>
    rintro ⟨b, hb, hv⟩
    rw [hv hplain, hb, Option.map_some]
  | error e =>
    rintro ⟨-, hnone, hp⟩
    rw [hp ⟨hmemory, hbridge⟩ hplain, hnone, Option.map_none]

/-- A native conversion reads only rows that its value is made of, and all of
them in range; it stays within its frames, and no sum or product of it wraps.
What it gives out is all that it leaves allocated, and a failure gives nothing out. -/
theorem valueConvert_run (B : Bridge) (column : Bool) (row : ℕ) :
    (∀ access ∈ (valueConvert B column vec row rowCount c).2.2.accesses,
      Vector.Touched vec row access.1 access.2) ∧
    (valueConvert B column vec row rowCount c).2.2.zvals.Owes
      (held ((valueConvert B column vec row rowCount c).2.1.zvals .out) ++ zvals) ∧
    (valueConvert B column vec row rowCount c).2.2.handles.Owes handles ∧
    match (valueConvert B column vec row rowCount c).1 with
    | .ok _ => ∃ b, (valueConvert B column vec row rowCount c).2.1.zvals .out = some b
    | .error e => ¬ e.isFault ∧ (valueConvert B column vec row rowCount c).2.1.zvals .out = none := by
  have hleft := valueConvert_left hsized hcount hz hh hc B column row
  refine ⟨hleft.accesses, hleft.zvals, hleft.handles, ?_⟩
  have hout := hleft.out
  revert hout
  cases (valueConvert B column vec row rowCount c).1 with
  | ok _ => exact fun ⟨b, hb, _⟩ ↦ ⟨b, hb⟩
  | error e => exact fun ⟨hfault, hnone, _⟩ ↦ ⟨hfault, hnone⟩

end Runs

def quiet : Surroundings := ⟨.empty, .empty, fun _ ↦ .granted, fun _ ↦ none, 0, []⟩

def listName : Vector → List Byte
  | .list _ _ _ child => listName child ++ ascii "[]"
  | _ => ascii "INTEGER"

def plainBridge : Bridge where
  floatToDouble _ := 0
  render _ := none
  scalarDeclaration _ := ascii "BIGINT"
  declaration := listName
  decode _ := none

/-- A list of 3 values, whose only entry says that it has 2 ^ 64 - 1 of them. -/
def corruptList : Vector := .list none [⟨1, 0xffffffffffffffff⟩] 3
  (.leaf (.integer .integer) none [.scalar (.integer .integer 1), .scalar (.integer .integer 2),
    .scalar (.integer .integer 3)])

theorem valueConvert_corruptList :
    (valueConvert plainBridge true corruptList 0 1 quiet).1 =
      .error (.failed "DuckDB list range is out of bounds") ∧
    (valueConvert plainBridge true corruptList 0 1 quiet).2.1.zvals .out = none ∧
    (valueConvert plainBridge true corruptList 0 1 quiet).2.2.handles.Owes [] := by
  have herror : (valueConvert plainBridge true corruptList 0 1 quiet).1 =
      .error (.failed "DuckDB list range is out of bounds") := rfl
  have hsized : corruptList.Sized 1 := ⟨nofun, rfl, nofun, rfl⟩
  obtain ⟨-, -, hhandles, hout⟩ := valueConvert_run (c := quiet) hsized (by decide) Custody.owes_empty
    Custody.owes_empty rfl plainBridge true 0
  rw [herror] at hout
  exact ⟨herror, hout.2, hhandles⟩

end Conversions

end PdoDuckdb.Structures
