import PdoDuckdb.Structures.Native

namespace PdoDuckdb.Structures

open Library Library.Exits Value
open Cells (Memory)

variable {depth i : ℕ} {o a v : Slot} {h : HandleSlot}

section Slots

def allSlots : List Slot := .out :: (List.range valueDepth).flatMap zvalSlots

def allHandleSlots : List HandleSlot := (List.range valueDepth).flatMap handleSlots

theorem mem_zvalSlots :
    o ∈ zvalSlots depth ↔ o = .item depth ∨ o = .key depth ∨ o = .entry depth ∨ o = .payload depth := by
  simp [zvalSlots]

theorem nodup_allSlots : allSlots.Nodup := by
  refine List.nodup_cons.mpr ⟨?_, List.nodup_flatMap.mpr ⟨fun i _ ↦ ?_, ?_⟩⟩
  · simp [zvalSlots]
  · simp [zvalSlots]
  · refine List.nodup_range.imp fun {i j} hij ↦ ?_
    simp [Function.onFun, List.disjoint_left, zvalSlots, hij]

theorem nodup_allHandleSlots : allHandleSlots.Nodup := by
  refine List.nodup_flatMap.mpr ⟨fun i _ ↦ ?_, ?_⟩
  · simp [handleSlots]
  · refine List.nodup_range.imp fun {i j} hij ↦ ?_
    simp [Function.onFun, List.disjoint_left, handleSlots, hij]

theorem mem_allSlots (hd : depth < valueDepth) (ho : o ∈ zvalSlots depth) : o ∈ allSlots :=
  List.mem_cons_of_mem _ (List.mem_flatMap.mpr ⟨depth, List.mem_range.mpr hd, ho⟩)

theorem mem_allHandleSlots (hd : depth < valueDepth) (hh : h ∈ handleSlots depth) :
    h ∈ allHandleSlots :=
  List.mem_flatMap.mpr ⟨depth, List.mem_range.mpr hd, hh⟩

end Slots

section Held

def held (b : Option Built) : List Handle := (b.map Built.handles).getD []

def zvalsHeld (z : Slot → Option Built) : List Handle := allSlots.flatMap fun o ↦ held (z o)

def handlesHeld (hs : HandleSlot → Option Handle) : List Handle :=
  allHandleSlots.flatMap fun h ↦ (hs h).toList

variable {z : Slot → Option Built} {x : Option Built}

theorem held_update : (fun i ↦ held (Function.update z o x i)) =
    Function.update (fun i ↦ held (z i)) o (held x) :=
  Function.comp_update held z o x

theorem zvalsHeld_update (ho : o ∈ allSlots) :
    (zvalsHeld (Function.update z o x)).Perm (held x ++ zvalsHeld (Function.update z o none)) := by
  unfold zvalsHeld
  rw [held_update, held_update]
  exact Custody.flatMap_update_perm nodup_allSlots ho (held x)

theorem zvalsHeld_take (ho : o ∈ allSlots) :
    (zvalsHeld z).Perm (held (z o) ++ zvalsHeld (Function.update z o none)) := by
  have hupdate : (zvalsHeld (Function.update z o (z o))).Perm _ := zvalsHeld_update ho
  rwa [Function.update_eq_self] at hupdate

theorem zvalsHeld_fill (ho : o ∈ allSlots) (hempty : z o = none) :
    (zvalsHeld (Function.update z o x)).Perm (held x ++ zvalsHeld z) := by
  have hupdate : (zvalsHeld (Function.update z o x)).Perm _ := zvalsHeld_update ho
  rwa [← hempty, Function.update_eq_self] at hupdate

theorem handlesHeld_update {hs : HandleSlot → Option Handle} {x : Option Handle}
    (hh : h ∈ allHandleSlots) :
    (handlesHeld (Function.update hs h x)).Perm
      (x.toList ++ handlesHeld (Function.update hs h none)) := by
  have hupdate (y : Option Handle) : (fun i ↦ (Function.update hs h y i).toList) =
      Function.update (fun i ↦ (hs i).toList) h y.toList :=
    Function.comp_update Option.toList hs h y
  unfold handlesHeld
  rw [hupdate, hupdate]
  exact Custody.flatMap_update_perm nodup_allHandleSlots hh x.toList

theorem handlesHeld_take {hs : HandleSlot → Option Handle} (hh : h ∈ allHandleSlots) :
    (handlesHeld hs).Perm ((hs h).toList ++ handlesHeld (Function.update hs h none)) := by
  have hupdate : (handlesHeld (Function.update hs h (hs h))).Perm _ := handlesHeld_update hh
  rwa [Function.update_eq_self] at hupdate

end Held

section Tables

def isTable : Zval → Bool
  | .array _ | .object _ => true
  | _ => false

def stored (a : Zval) (name : List Byte) (v : Zval) : Zval :=
  match a with
  | .object properties => .object (Zval.update properties name v)
  | a => a.insert name v

variable {b c : Built} {k : Key} {name : List Byte} {entries : List (Key × Built)}

theorem stored_tag (type : List Byte) (v : Zval) :
    stored (.tag type) (ascii "value") v = .tagged type v :=
  Zval.insert_tag type v

theorem stored_entry (k v : Zval) :
    stored (stored (.array []) (ascii "key") k) (ascii "value") v = .entry k v :=
  Zval.insert_entry k v

theorem put_perm (entries : List (Key × Built)) (k : Key) (b : Built) :
    (entryHandles (put entries k b) ++ replaced entries k).Perm (b.handles ++ entryHandles entries) := by
  induction entries with
  | nil => simp [put, replaced, entryHandles]
  | cons e entries ih =>
    unfold put replaced
    by_cases he : e.1 = k
    · rw [if_pos he, if_pos he]
      simp only [entryHandles, List.append_assoc]
      exact List.perm_append_comm.append_left b.handles
    · rw [if_neg he, if_neg he]
      simp only [entryHandles, List.append_assoc]
      refine (ih.append_left e.2.handles).trans ?_
      rw [← List.append_assoc, ← List.append_assoc]
      exact List.perm_append_comm.append_right _

theorem stored_perm (hc : isTable c.zval) (k : Key) (b : Built) :
    ((c.stored k b).handles ++ c.replaced k).Perm (b.handles ++ c.handles) := by
  cases c with
  | array h entries =>
    simp only [Built.stored, Built.replaced, Built.handles, List.cons_append]
    exact ((put_perm entries k b).cons h).trans List.perm_middle.symm
  | object h properties =>
    simp only [Built.stored, Built.replaced, Built.handles, List.cons_append]
    exact ((put_perm properties k b).cons h).trans List.perm_middle.symm
  | null => cases hc
  | bool => cases hc
  | long => cases hc
  | double => cases hc
  | string => cases hc

theorem entryZvals_put : entryZvals (put entries (.ofName name) b) =
    Zval.update (entryZvals entries) name b.zval := by
  induction entries with
  | nil => rfl
  | cons e entries ih =>
    by_cases he : e.1 = .ofName name
    · simp [put, entryZvals, Zval.update, he]
    · simp [put, entryZvals, Zval.update, he, ih]

theorem zval_stored : (c.stored (.ofName name) b).zval = stored c.zval name b.zval := by
  cases c with
  | array h entries => exact congrArg Zval.array entryZvals_put
  | object h properties => exact congrArg Zval.object entryZvals_put
  | null => rfl
  | bool => rfl
  | long => rfl
  | double => rfl
  | string => rfl

theorem entryZvals_append (k : Key) (b : Built) :
    entryZvals (entries ++ [(k, b)]) = entryZvals entries ++ [(k, b.zval)] := by
  induction entries with
  | nil => rfl
  | cons e entries ih => simp [entryZvals, ih]

theorem entryHandles_append (k : Key) (b : Built) :
    entryHandles (entries ++ [(k, b)]) = entryHandles entries ++ b.handles := by
  induction entries with
  | nil => simp [entryHandles]
  | cons e entries ih => simp [entryHandles, ih]

theorem length_entryZvals : (entryZvals entries).length = entries.length := by
  induction entries with
  | nil => rfl
  | cons e entries ih => simp [entryZvals, ih]

end Tables

section Invariants

/-- What stays as it is in a conversion, and what it may look at. -/
structure Setting where
  memory : ℕ → Memory
  bridge : ℕ → Option String
  zvals : List Handle
  handles : List Handle
  touched : List ℕ → ℕ → Prop

def Setting.Granted (G : Setting) : Prop := (∀ n, G.memory n = .granted) ∧ ∀ n, G.bridge n = none

/-- Everything allocated is in a slot, or at hand, or was there before. -/
structure Balanced (G : Setting) (extra : List Handle) (s : Slots × Surroundings) : Prop where
  memory : s.2.memory = G.memory
  bridge : s.2.bridge = G.bridge
  zvals : s.2.zvals.Owes (extra ++ (zvalsHeld s.1.zvals ++ G.zvals))
  handles : s.2.handles.Owes (handlesHeld s.1.handles ++ G.handles)
  accesses : ∀ access ∈ s.2.accesses, G.touched access.1 access.2

structure Holds (G : Setting) (Z : Slot → Option Zval) (O : HandleSlot → Bool)
    (s : Slots × Surroundings) : Prop where
  balanced : Balanced G [] s
  values : ∀ o, (s.1.zvals o).map Built.zval = Z o
  occupied : ∀ h, (s.1.handles h).isSome = O h

/-- An exit that leaves nothing behind, but in the slots. -/
structure Lost (G : Setting) (p : Prop) (e : Halt) (s : Slots × Surroundings) : Prop where
  balanced : Balanced G [] s
  sound : ¬ e.isFault
  granted : G.Granted → p

variable {G : Setting} {Z : Slot → Option Zval} {O : HandleSlot → Bool} {s : Slots × Surroundings}
  {p q : Prop} {e : Halt} {extra : List Handle} {b c : Built} {x za : Zval} {name : List Byte}

theorem Lost.imp (hs : Lost G p e s) (hpq : p → q) : Lost G q e s :=
  ⟨hs.balanced, hs.sound, fun hG ↦ hpq (hs.granted hG)⟩

/-- A weaker reason for a failure. -/
theorem lost_mono {α : Type} {P : Slots × Surroundings → Prop} {m : Reading α}
    {Q : α → Slots × Surroundings → Prop} (hm : Meets P m Q (Lost G p)) (hpq : p → q) :
    Meets P m Q (Lost G q) :=
  hm.mono (fun _ hs ↦ hs) (fun _ _ hs ↦ hs) fun _ _ hs ↦ hs.imp hpq

theorem values_update {z : Slot → Option Built} {y : Option Built}
    (hvalues : ∀ o, (z o).map Built.zval = Z o) (i : Slot) :
    (Function.update z o y i).map Built.zval = Function.update Z o (y.map Built.zval) i := by
  by_cases hi : i = o
  · subst hi
    rw [Function.update_self, Function.update_self]
  · rw [Function.update_of_ne hi, Function.update_of_ne hi, hvalues i]

theorem occupied_update {hs : HandleSlot → Option Handle} {y : Option Handle}
    (hoccupied : ∀ h, (hs h).isSome = O h) (i : HandleSlot) :
    (Function.update hs h y i).isSome = Function.update O h y.isSome i := by
  by_cases hi : i = h
  · subst hi
    rw [Function.update_self, Function.update_self]
  · rw [Function.update_of_ne hi, Function.update_of_ne hi, hoccupied i]

theorem Holds.built (hs : Holds G Z O s) (ho : Z o = some x) : ∃ b, s.1.zvals o = some b ∧ b.zval = x :=
  Option.map_eq_some_iff.mp ((hs.values o).trans ho)

theorem Holds.empty (hs : Holds G Z O s) (ho : Z o = none) : s.1.zvals o = none :=
  Option.map_eq_none_iff.mp ((hs.values o).trans ho)

theorem moved_zvals (v : Slot) (s : Slots × Surroundings) :
    (moved v s).1.zvals = Function.update s.1.zvals v none :=
  rfl

theorem moved_of_ne (hne : a ≠ v) (ha : s.1.zvals a = some c) : (moved v s).1.zvals a = some c := by
  rw [moved_zvals, Function.update_of_ne hne, ha]

theorem Balanced.moved (hs : Balanced G [] s) (hv : v ∈ allSlots) (hb : s.1.zvals v = some b) :
    Balanced G b.handles (moved v s) where
  memory := hs.memory
  bridge := hs.bridge
  zvals := by
    have htake := zvalsHeld_take (z := s.1.zvals) hv
    rw [hb] at htake
    have howes := hs.zvals.perm (htake.append_right G.zvals)
    rwa [List.append_assoc] at howes
  handles := hs.handles
  accesses := hs.accesses

/-- A zval at hand is put into an empty slot. -/
theorem Balanced.fill (hs : Balanced G b.handles s) (ho : o ∈ allSlots) (hempty : s.1.zvals o = none) :
    Balanced G [] ({ s.1 with zvals := Function.update s.1.zvals o (some b) }, s.2) where
  memory := hs.memory
  bridge := hs.bridge
  zvals := by
    have hfill : (zvalsHeld (Function.update s.1.zvals o (some b))).Perm _ := zvalsHeld_fill ho hempty
    have howes := hs.zvals
    rw [← List.append_assoc] at howes
    exact howes.perm (hfill.symm.append_right G.zvals)
  handles := hs.handles
  accesses := hs.accesses

/-- A zval at hand is stored in an array or an object. -/
theorem Balanced.store (hs : Balanced G b.handles s) (ha : a ∈ allSlots) (hc : s.1.zvals a = some c)
    (htable : isTable c.zval) (name : List Byte) : Balanced G [] (store a name b s) := by
  unfold Structures.store
  rw [hc]
  refine ⟨hs.memory, hs.bridge, ?_, hs.handles, hs.accesses⟩
  refine Custody.Owes.releaseAll (hs.zvals.perm ?_)
  have htake := zvalsHeld_take (z := s.1.zvals) ha
  have hupdate : (zvalsHeld (Function.update s.1.zvals a (some (c.stored (.ofName name) b)))).Perm _ :=
    zvalsHeld_update ha
  rw [hc] at htake
  have hstored := stored_perm htable (.ofName name) b
  have hrest : (b.handles ++ zvalsHeld s.1.zvals).Perm (c.replaced (.ofName name) ++
      zvalsHeld (Function.update s.1.zvals a (some (c.stored (.ofName name) b)))) := by
    refine (htake.append_left b.handles).trans ?_
    refine .trans ?_ (hupdate.append_left _).symm
    rw [← List.append_assoc, ← List.append_assoc]
    exact (hstored.symm.trans List.perm_append_comm).append_right _
  rw [← List.append_assoc]
  simpa using hrest.append_right G.zvals

end Invariants

section Primitives

variable {G : Setting} {Z : Slot → Option Zval} {O : HandleSlot → Bool} {p : Prop} {x za : Zval}
  {entries : List (Key × Zval)} {extra : List Handle}

theorem fail_meets {α : Type} {Q : α → Slots × Surroundings → Prop} (message : String) (hp : p) :
    Meets (Holds G Z O) (fail message : Reading α) Q (Lost G p) :=
  Meets.exit fun _ hs ↦ ⟨hs.balanced, nofun, fun _ ↦ hp⟩

theorem request_meets : Meets (Holds G Z O) request (fun _ ↦ Holds G Z O) (Lost G p) := by
  intro s hs
  have hb : Balanced G [] (s.1, s.2.called) :=
    ⟨hs.balanced.memory, hs.balanced.bridge, hs.balanced.zvals, hs.balanced.handles, hs.balanced.accesses⟩
  have hlost (e : Halt) (he : ¬ e.isFault) (hm : s.2.memory s.2.calls ≠ .granted) :
      Lost G p e (s.1, s.2.called) :=
    ⟨hb, he, fun hG ↦ absurd (by rw [hs.balanced.memory]; exact hG.1 s.2.calls) hm⟩
  unfold request
  cases hm : s.2.memory s.2.calls with
  | granted => exact ⟨hb, hs.values, hs.occupied⟩
  | exhausted => exact hlost .exhausted nofun (by rw [hm]; nofun)
  | bailout => exact hlost .bailout nofun (by rw [hm]; nofun)

theorem bridge_meets : Meets (Holds G Z O) bridge (fun _ ↦ Holds G Z O) (Lost G p) := by
  intro s hs
  have hb : Balanced G [] (s.1, s.2.called) :=
    ⟨hs.balanced.memory, hs.balanced.bridge, hs.balanced.zvals, hs.balanced.handles, hs.balanced.accesses⟩
  unfold bridge
  cases hm : s.2.bridge s.2.calls with
  | none => exact ⟨hb, hs.values, hs.occupied⟩
  | some message =>
    refine ⟨hb, nofun, fun hG ↦ ?_⟩
    rw [hs.balanced.bridge, hG.2] at hm
    cases hm

theorem atFrame_meets (hd : depth < valueDepth) :
    Meets (Holds G Z O) (atFrame depth) (fun _ ↦ Holds G Z O) (Lost G p) := by
  intro s hs
  unfold atFrame
  rw [if_pos hd]
  exact hs

theorem setZval_meets (ho : o ∈ allSlots) (hempty : Z o = none) {b : Built} (hb : b.handles = []) :
    Meets (Holds G Z O) (setZval o b) (fun _ ↦ Holds G (Function.update Z o (some b.zval)) O)
      (Lost G p) := by
  refine Meets.step fun s hs ↦ ⟨?_, values_update hs.values, hs.occupied⟩
  have hnone : Balanced G b.handles s := by
    rw [hb]
    exact hs.balanced
  exact hnone.fill ho (hs.empty hempty)

theorem newZval_meets (ho : o ∈ allSlots) (hempty : Z o = none) {make : Handle → Built}
    (hmake : ∀ h, (make h).handles = [h] ∧ (make h).zval = x) :
    Meets (Holds G Z O) (newZval o make) (fun _ ↦ Holds G (Function.update Z o (some x)) O)
      (Lost G p) := by
  refine Meets.bind request_meets fun _ ↦ Meets.step fun s hs ↦ ?_
  have hcreated : Balanced G (make (s.2.zvals.create ()).1).handles
      (s.1, { s.2 with zvals := (s.2.zvals.create ()).2 }) := by
    rw [(hmake _).1]
    exact ⟨hs.balanced.memory, hs.balanced.bridge, hs.balanced.zvals.create (), hs.balanced.handles,
      hs.balanced.accesses⟩
  refine ⟨hcreated.fill ho (hs.empty hempty), fun i ↦ ?_, hs.occupied⟩
  rw [← (hmake (s.2.zvals.create ()).1).2]
  exact values_update hs.values i

theorem newArray_meets (ho : o ∈ allSlots) (hempty : Z o = none) :
    Meets (Holds G Z O) (newArray o) (fun _ ↦ Holds G (Function.update Z o (some (.array []))) O)
      (Lost G p) :=
  newZval_meets ho hempty fun _ ↦ ⟨rfl, rfl⟩

/-- A string that is in no slot is as if it had been there before. -/
def Setting.aside (G : Setting) (h : Handle) : Setting := { G with zvals := h :: G.zvals }

theorem Balanced.aside {h : Handle} {s : Slots × Surroundings} (hs : Balanced G (h :: extra) s) :
    Balanced (G.aside h) extra s := by
  have hperm : (h :: extra ++ (zvalsHeld s.1.zvals ++ G.zvals)).Perm
      (extra ++ (zvalsHeld s.1.zvals ++ h :: G.zvals)) := by
    rw [← List.append_assoc, ← List.append_assoc]
    exact List.perm_middle.symm
  exact ⟨hs.memory, hs.bridge, hs.zvals.perm hperm, hs.handles, hs.accesses⟩

theorem Balanced.at_hand {h : Handle} {s : Slots × Surroundings} (hs : Balanced (G.aside h) extra s) :
    Balanced G (h :: extra) s := by
  have hperm : (extra ++ (zvalsHeld s.1.zvals ++ h :: G.zvals)).Perm
      (h :: extra ++ (zvalsHeld s.1.zvals ++ G.zvals)) := by
    rw [← List.append_assoc, ← List.append_assoc]
    exact List.perm_middle
  exact ⟨hs.memory, hs.bridge, hs.zvals.perm hperm, hs.handles, hs.accesses⟩

theorem Balanced.swap {h k : Handle} {s : Slots × Surroundings} (hs : Balanced G (h :: k :: extra) s) :
    Balanced G (k :: h :: extra) s :=
  ⟨hs.memory, hs.bridge, hs.zvals.perm (.swap k h _), hs.handles, hs.accesses⟩

theorem Balanced.release {h : Handle} {s : Slots × Surroundings} (hs : Balanced (G.aside h) [] s) :
    Balanced G [] (release h s) :=
  ⟨hs.memory, hs.bridge, hs.at_hand.zvals.release, hs.handles, hs.accesses⟩

theorem Holds.release {h : Handle} {s : Slots × Surroundings} (hs : Holds (G.aside h) Z O s) :
    Holds G Z O (release h s) :=
  ⟨hs.balanced.release, hs.values, hs.occupied⟩

theorem Lost.release {h : Handle} {s : Slots × Surroundings} {e : Halt} (hs : Lost (G.aside h) p e s) :
    Lost G p e (release h s) :=
  ⟨hs.balanced.release, hs.sound, hs.granted⟩

theorem makeString_meets :
    Meets (Holds G Z O) makeString (fun h ↦ Holds (G.aside h) Z O) (Lost G p) := by
  refine Meets.bind request_meets fun _ ↦ Meets.step fun s hs ↦ ?_
  have hcreated : Balanced G [(s.2.zvals.create ()).1] (s.1, { s.2 with zvals := (s.2.zvals.create ()).2 }) :=
    ⟨hs.balanced.memory, hs.balanced.bridge, hs.balanced.zvals.create (), hs.balanced.handles,
      hs.balanced.accesses⟩
  exact ⟨hcreated.aside, hs.values, hs.occupied⟩

/-- The key is back after an insertion and after an exit from it. -/
theorem hashInsert_meets {G' : Setting} {Z' : Slot → Option Zval}
    {update : Slots × Surroundings → Slots × Surroundings}
    (hupdate : ∀ h s, Holds (G.aside h) Z O s → Holds (G'.aside h) Z' O (update s)) :
    Meets (Holds G Z O) (hashInsert update) (fun _ ↦ Holds G' Z' O) (Lost G p) := by
  refine Meets.bind makeString_meets fun key ↦ ?_
  have hroom : Meets (Holds (G.aside key) Z O) request (fun _ ↦ Holds (G.aside key) Z O)
      (fun e s ↦ Lost G p e (release key s)) :=
    request_meets.mono (fun _ hs ↦ hs) (fun _ _ hs ↦ hs) fun _ _ hs ↦ hs.release
  refine Meets.bind (Meets.guarded hroom) fun _ ↦ ?_
  exact Meets.step fun s hs ↦ (hupdate key s hs).release

theorem insert_meets (ha : a ∈ allSlots) (hv : v ∈ allSlots) (hne : a ≠ v) (hza : Z a = some za)
    (htable : isTable za) (hzv : Z v = some x) (name : List Byte) :
    Meets (Holds G Z O) (insert a name v)
      (fun _ ↦ Holds G (Function.update (Function.update Z v none) a (some (stored za name x))) O)
      (Lost G p) := by
  refine hashInsert_meets fun key s hs ↦ ?_
  obtain ⟨b, hb, rfl⟩ := hs.built hzv
  obtain ⟨c, hc, rfl⟩ := hs.built hza
  have hc' := moved_of_ne hne hc
  have hstore := (hs.balanced.moved hv hb).store ha hc' htable name
  rw [hb]
  refine ⟨hstore, fun i ↦ ?_, ?_⟩
  · unfold store
    rw [hc', ← zval_stored]
    exact values_update (fun o ↦ values_update (y := none) hs.values o) i
  · unfold store
    rw [hc']
    exact hs.occupied

theorem append_meets (ha : a ∈ allSlots) (hv : v ∈ allSlots) (hne : a ≠ v)
    (hza : Z a = some (.array entries)) (hzv : Z v = some x) :
    Meets (Holds G Z O) (append a v)
      (fun _ ↦ Holds G
        (Function.update (Function.update Z v none) a (some ((Zval.array entries).append x))) O)
      (Lost G p) := by
  refine Meets.bind request_meets fun _ ↦ Meets.step fun s hs ↦ ?_
  obtain ⟨b, hb, rfl⟩ := hs.built hzv
  obtain ⟨c, hc, hcz⟩ := hs.built hza
  cases c with
  | array h es =>
    obtain rfl := Zval.array.inj hcz
    dsimp only
    rw [hb, hc]
    have hmoved := (hs.balanced.moved hv hb)
    have hc' := moved_of_ne hne hc
    refine ⟨⟨hs.balanced.memory, hs.balanced.bridge, ?_, hs.balanced.handles, hs.balanced.accesses⟩,
      fun i ↦ ?_, hs.occupied⟩
    · have htake := zvalsHeld_take (z := (moved v s).1.zvals) ha
      rw [hc'] at htake
      refine hmoved.zvals.perm ?_
      have hupdate : (zvalsHeld (Function.update (moved v s).1.zvals a
          (some (.array h (es ++ [(.index es.length, b)]))))).Perm _ := zvalsHeld_update ha
      have heq : (held (some (.array h (es ++ [(.index es.length, b)])))).Perm
          (b.handles ++ held (some (.array h es))) := by
        unfold held
        simp only [Option.map_some, Option.getD_some, Built.handles, entryHandles_append]
        exact ((List.perm_append_comm).cons h).trans List.perm_middle.symm
      rw [List.nil_append, ← List.append_assoc]
      refine List.Perm.append_right G.zvals ?_
      refine (htake.append_left b.handles).trans ?_
      rw [← List.append_assoc]
      exact (heq.symm.append_right _).trans hupdate.symm
    · have happend : (Zval.array (entryZvals es)).append b.zval =
          (Built.array h (es ++ [(.index es.length, b)])).zval := by
        simp [Zval.append, Built.zval, entryZvals_append, length_entryZvals]
      rw [happend]
      exact values_update (fun o ↦ values_update (y := none) hs.values o) i
  | null => cases hcz
  | bool => cases hcz
  | long => cases hcz
  | double => cases hcz
  | string => cases hcz
  | object => cases hcz

theorem insertString_meets (ha : a ∈ allSlots) (hza : Z a = some za) (htable : isTable za)
    (name t : List Byte) :
    Meets (Holds G Z O) (insertString a name t)
      (fun _ ↦ Holds G (Function.update Z a (some (stored za name (.string t)))) O) (Lost G p) := by
  refine Meets.bind makeString_meets fun value ↦ Meets.guarded ?_
  refine Meets.mono (hashInsert_meets fun key s hs ↦ ?_) (fun _ hs ↦ hs) (fun _ _ hs ↦ hs)
    fun _ _ hs ↦ hs.release
  obtain ⟨c, hc, rfl⟩ := hs.built hza
  have hboth : Balanced G [value, key] s := hs.balanced.at_hand.at_hand
  have hstring : Balanced (G.aside key) (Built.string value t).handles s := hboth.swap.aside
  refine ⟨hstring.store ha hc htable name, fun i ↦ ?_, ?_⟩
  · have hzval : stored c.zval name (.string t) =
        (c.stored (.ofName name) (.string value t)).zval := by
      rw [zval_stored]
      rfl
    unfold store
    rw [hc, hzval]
    exact values_update hs.values i
  · unfold store
    rw [hc]
    exact hs.occupied

theorem tag_meets (ho : o ∈ allSlots) (hempty : Z o = none) (type : List Byte) :
    Meets (Holds G Z O) (tag o type) (fun _ ↦ Holds G (Function.update Z o (some (.tag type))) O)
      (Lost G p) := by
  have h : Meets (Holds G Z O) (tag o type) (fun _ ↦ Holds G (Function.update
      (Function.update Z o (some (.array []))) o
        (some (stored (.array []) (ascii "type") (.string type)))) O) (Lost G p) :=
    Meets.bind (newArray_meets ho hempty) fun _ ↦
      insertString_meets ho (Function.update_self ..) rfl (ascii "type") type
  rwa [Function.update_idem] at h

theorem take_meets (hh : h ∈ allHandleSlots) (hfree : O h = false) :
    Meets (Holds G Z O) (take h) (fun _ ↦ Holds G Z (Function.update O h true)) (Lost G p) := by
  refine Meets.bind bridge_meets fun _ ↦ Meets.step fun s hs ↦ ?_
  have hnone : s.1.handles h = none := by
    have hsome := hs.occupied h
    rwa [hfree, Option.isSome_eq_false_iff, Option.isNone_iff_eq_none] at hsome
  refine ⟨⟨hs.balanced.memory, hs.balanced.bridge, hs.balanced.zvals, ?_, hs.balanced.accesses⟩,
    hs.values, occupied_update hs.occupied⟩
  have hupdate : (handlesHeld (Function.update s.1.handles h (some (s.2.handles.create ()).1))).Perm _ :=
    handlesHeld_update hh
  rw [← hnone, Function.update_eq_self] at hupdate
  exact (hs.balanced.handles.create ()).perm (hupdate.symm.append_right G.handles)

theorem drop_meets (hh : h ∈ allHandleSlots) :
    Meets (Holds G Z O) (drop h) (fun _ ↦ Holds G Z (Function.update O h false)) (Lost G p) := by
  refine Meets.step fun s hs ↦ ?_
  refine ⟨⟨hs.balanced.memory, hs.balanced.bridge, hs.balanced.zvals, ?_, hs.balanced.accesses⟩,
    hs.values, occupied_update hs.occupied⟩
  refine Custody.Owes.releaseAll (hs.balanced.handles.perm ?_)
  rw [← List.append_assoc]
  exact (handlesHeld_take hh).append_right G.handles

theorem moveZval_meets (hv : v ∈ allSlots) (ho : o ∈ allSlots) (hne : o ≠ v) (hempty : Z o = none) :
    Meets (Holds G Z O) (moveZval v o)
      (fun _ ↦ Holds G (Function.update (Function.update Z v none) o (Z v)) O) (Lost G p) := by
  refine Meets.step fun s hs ↦ ?_
  refine ⟨⟨hs.balanced.memory, hs.balanced.bridge, ?_, hs.balanced.handles, hs.balanced.accesses⟩,
    fun i ↦ ?_, hs.occupied⟩
  · refine hs.balanced.zvals.perm (List.Perm.append_right G.zvals ?_)
    have hfill : (zvalsHeld (Function.update (Function.update s.1.zvals v none) o (s.1.zvals v))).Perm _ :=
      zvalsHeld_fill ho ((Function.update_of_ne hne none _).trans (hs.empty hempty))
    exact (zvalsHeld_take hv).trans hfill.symm
  · rw [← hs.values v]
    exact values_update (fun o ↦ values_update (y := none) hs.values o) i

theorem readRow_meets {α : Type} {l : List α} {path : List ℕ} {row : ℕ} (htouched : G.touched path row)
    (hrow : row < l.length) :
    Meets (Holds G Z O) (readRow l path row) (fun d s ↦ l[row]? = some d ∧ Holds G Z O s) (Lost G p) := by
  intro s hs
  unfold readRow
  rw [List.getElem?_eq_getElem hrow]
  refine ⟨rfl, ⟨hs.balanced.memory, hs.balanced.bridge, hs.balanced.zvals,
    hs.balanced.handles, ?_⟩, hs.values, hs.occupied⟩
  exact List.forall_mem_cons.mpr ⟨htouched, hs.balanced.accesses⟩

theorem checked_meets {n : ℕ} (hn : n < 0x10000000000000000) :
    Meets (Holds G Z O) (checked n) (fun m s ↦ m = n ∧ Holds G Z O s) (Lost G p) := by
  intro s hs
  unfold checked
  rw [if_pos hn]
  exact ⟨rfl, hs⟩

end Primitives

end PdoDuckdb.Structures
