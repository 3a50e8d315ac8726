import PdoDuckdb.Structures.Balance

namespace PdoDuckdb.Structures

open Library Library.Exits Value

/-- Where a call has its zvals: its `out`, and its frame. -/
inductive Place
  | out | item | key | entry | payload
deriving DecidableEq

def Place.slot (o : Slot) (depth : ℕ) : Place → Slot
  | .out => o
  | .item => .item depth
  | .key => .key depth
  | .entry => .entry depth
  | .payload => .payload depth

inductive Part
  | type | scalar | value | variant
  | bytes (second : Bool)
deriving DecidableEq

def Part.slot (depth : ℕ) : Part → HandleSlot
  | .type => .type depth
  | .scalar => .scalar depth
  | .value => .value depth
  | .variant => .variant depth
  | .bytes second => .bytes second depth

section Extensions

variable {ι κ β : Type*} [DecidableEq ι] [DecidableEq κ] {e : ι → κ}

theorem update_extend (he : Function.Injective e) (f : ι → β) (F : κ → β) (i : ι) (x : β) :
    Function.update (Function.extend e f F) (e i) x = Function.extend e (Function.update f i x) F := by
  funext k
  by_cases hk : ∃ j, e j = k
  · obtain ⟨j, rfl⟩ := hk
    rw [he.extend_apply]
    by_cases hj : j = i
    · rw [hj, Function.update_self, Function.update_self]
    · rw [Function.update_of_ne (he.ne hj), Function.update_of_ne hj, he.extend_apply]
  · have hne : k ≠ e i := fun h ↦ hk ⟨i, h.symm⟩
    rw [Function.update_of_ne hne, Function.extend_apply' _ _ _ hk, Function.extend_apply' _ _ _ hk]

omit [DecidableEq ι] [DecidableEq κ] in
theorem extend_const (he : Function.Injective e) (F : κ → β) {x : β} (hF : ∀ i, F (e i) = x) :
    Function.extend e (fun _ ↦ x) F = F := by
  funext k
  by_cases hk : ∃ i, e i = k
  · obtain ⟨i, rfl⟩ := hk
    rw [he.extend_apply, hF]
  · rw [Function.extend_apply' _ _ _ hk]

end Extensions

variable {depth : ℕ} {o : Slot}

theorem Place.slot_injective (ho : o ∉ zvalSlots depth) : Function.Injective (Place.slot o depth) := by
  intro p q hpq
  rw [mem_zvalSlots] at ho
  cases p <;> cases q <;> simp_all [Place.slot]

theorem Part.slot_injective (depth : ℕ) : Function.Injective (Part.slot depth) := by
  intro p q hpq
  cases p <;> cases q <;> simp_all [Part.slot]

theorem Place.slot_mem_frame {p : Place} (hp : p ≠ .out) : p.slot o depth ∈ zvalSlots depth := by
  cases p <;> simp_all [Place.slot, zvalSlots]

theorem Part.slot_mem_frame (p : Part) : p.slot depth ∈ handleSlots depth := by
  rcases p with _ | _ | _ | _ | _ | _ <;> simp [Part.slot, handleSlots]

theorem zvalSlots_disjoint {i j : ℕ} {a : Slot} (hij : i ≠ j) (ha : a ∈ zvalSlots i) :
    a ∉ zvalSlots j := by
  rw [mem_zvalSlots] at ha ⊢
  obtain rfl | rfl | rfl | rfl := ha <;> simp [hij]

theorem handleSlots_disjoint {i j : ℕ} {h : HandleSlot} (hij : i ≠ j) (hh : h ∈ handleSlots i) :
    h ∉ handleSlots j := by
  simp only [handleSlots, List.mem_cons, List.not_mem_nil, or_false] at hh ⊢
  obtain rfl | rfl | rfl | rfl | rfl | rfl := hh <;> simp [hij]

section Calls

variable {G : Setting} {Z : Slot → Option Zval} {O : HandleSlot → Bool} {p : Prop}
  {f : Place → Option Zval} {g : Part → Bool} {x za : Zval} {entries : List (Key × Zval)}

/-- What a call at a depth finds: its frame and those after it are clear, and so
is its `out`, which is not in them. -/
structure Ready (Z : Slot → Option Zval) (O : HandleSlot → Bool) (depth : ℕ) (o : Slot) : Prop where
  zvals : ∀ i ≥ depth, ∀ a ∈ zvalSlots i, Z a = none
  handles : ∀ i ≥ depth, ∀ h ∈ handleSlots i, O h = false
  mem : o ∈ allSlots
  apart : ∀ i ≥ depth, o ∉ zvalSlots i
  empty : Z o = none

/-- What is in the places of a call, over what the others have. -/
abbrev At (G : Setting) (Z : Slot → Option Zval) (O : HandleSlot → Bool) (o : Slot) (depth : ℕ)
    (f : Place → Option Zval) (g : Part → Bool) : Slots × Surroundings → Prop :=
  Holds G (Function.extend (Place.slot o depth) f Z) (Function.extend (Part.slot depth) g O)

/-- The call has filled its `out`. -/
def Filled {α : Type} (G : Setting) (Z : Slot → Option Zval) (O : HandleSlot → Bool) (o : Slot)
    (depth : ℕ) (q : α → Zval → Prop) (r : α) (s : Slots × Surroundings) : Prop :=
  ∃ v, q r v ∧ ∃ f g, f .out = some v ∧ At G Z O o depth f g s

/-- A function with an `out` fills it with what it should, or fails where it
should, and leaves everything else as it is. -/
def Walks {α : Type} (G : Setting) (depth : ℕ) (m : Slot → Reading α) (q : α → Zval → Prop)
    (p : Prop) : Prop :=
  ∀ Z O o, Ready Z O depth o →
    Meets (Holds G Z O) (m o) (fun r s ↦ ∃ v, q r v ∧ Holds G (Function.update Z o (some v)) O s)
      (Lost G p)

namespace Ready

theorem injective (hr : Ready Z O depth o) : Function.Injective (Place.slot o depth) :=
  Place.slot_injective (hr.apart depth (Nat.le_refl depth))

theorem slot_mem (hr : Ready Z O depth o) (hd : depth < valueDepth) (a : Place) :
    a.slot o depth ∈ allSlots := by
  by_cases ha : a = .out
  · rw [ha]
    exact hr.mem
  · exact mem_allSlots hd (Place.slot_mem_frame ha)

theorem start (hr : Ready Z O depth o) :
    At G Z O o depth (fun _ ↦ none) (fun _ ↦ false) = Holds G Z O := by
  unfold At
  rw [extend_const hr.injective, extend_const (Part.slot_injective depth)]
  · exact fun q ↦ hr.handles depth (Nat.le_refl depth) _ q.slot_mem_frame
  · intro a
    by_cases ha : a = .out
    · rw [ha]
      exact hr.empty
    · exact hr.zvals depth (Nat.le_refl depth) _ (Place.slot_mem_frame ha)

/-- A call one level down, into one of the places. -/
theorem child (hr : Ready Z O depth o) (hd : depth < valueDepth) {a : Place} (hfa : f a = none) :
    Ready (Function.extend (Place.slot o depth) f Z) (Function.extend (Part.slot depth) g O)
      (depth + 1) (a.slot o depth) where
  zvals := by
    intro i hi b hb
    rw [Function.extend_apply']
    · exact hr.zvals i (Nat.le_of_succ_le hi) b hb
    · rintro ⟨q, rfl⟩
      by_cases hq : q = .out
      · rw [hq] at hb
        exact hr.apart i (Nat.le_of_succ_le hi) hb
      · exact zvalSlots_disjoint (Nat.ne_of_lt hi) (Place.slot_mem_frame hq) hb
  handles := by
    intro i hi h hh
    rw [Function.extend_apply']
    · exact hr.handles i (Nat.le_of_succ_le hi) h hh
    · rintro ⟨q, rfl⟩
      exact handleSlots_disjoint (Nat.ne_of_lt hi) q.slot_mem_frame hh
  mem := hr.slot_mem hd a
  apart := by
    intro i hi
    by_cases ha : a = .out
    · rw [ha]
      exact hr.apart i (Nat.le_of_succ_le hi)
    · exact zvalSlots_disjoint (Nat.ne_of_lt hi) (Place.slot_mem_frame ha)
  empty := by rw [hr.injective.extend_apply, hfa]

end Ready

theorem clearFrame_balanced {s : Slots × Surroundings} (hd : depth < valueDepth)
    (hs : Balanced G [] s) : Balanced G [] (clearFrame depth s) where
  memory := hs.memory
  bridge := hs.bridge
  accesses := hs.accesses
  zvals := by
    have hperm : (allSlots.flatMap fun o ↦ held (s.1.zvals o)).Perm
        ((zvalSlots depth).flatMap (fun o ↦ held (s.1.zvals o)) ++ _) :=
      Custody.flatMap_clear_perm nodup_allSlots (by simp [zvalSlots]) fun _ ho ↦ mem_allSlots hd ho
    have hcleared : (fun i ↦ if i ∈ zvalSlots depth then [] else held (s.1.zvals i)) =
        fun i ↦ held ((clearFrame depth s).1.zvals i) := by
      funext i
      show _ = held (if i ∈ zvalSlots depth then none else s.1.zvals i)
      split_ifs <;> rfl
    rw [hcleared] at hperm
    refine Custody.Owes.releaseAll (hs.zvals.perm ?_)
    rw [List.nil_append, List.nil_append, ← List.append_assoc]
    exact hperm.append_right G.zvals
  handles := by
    have hperm : (allHandleSlots.flatMap fun h ↦ (s.1.handles h).toList).Perm
        ((handleSlots depth).flatMap (fun h ↦ (s.1.handles h).toList) ++ _) :=
      Custody.flatMap_clear_perm nodup_allHandleSlots (by simp [handleSlots])
        fun _ hh ↦ mem_allHandleSlots hd hh
    have hcleared : (fun i ↦ if i ∈ handleSlots depth then [] else (s.1.handles i).toList) =
        fun i ↦ ((clearFrame depth s).1.handles i).toList := by
      funext i
      show _ = (if i ∈ handleSlots depth then none else s.1.handles i).toList
      split_ifs <;> rfl
    rw [hcleared] at hperm
    refine Custody.Owes.releaseAll (hs.handles.perm ?_)
    rw [← List.append_assoc]
    exact hperm.append_right G.handles

/-- Clearing its frame ends a call. -/
theorem clearFrame_at {s : Slots × Surroundings} (hr : Ready Z O depth o) (hd : depth < valueDepth)
    (hs : At G Z O o depth f g s) : Holds G (Function.update Z o (f .out)) O (clearFrame depth s) where
  balanced := clearFrame_balanced hd hs.balanced
  values := by
    intro i
    show (if i ∈ zvalSlots depth then none else s.1.zvals i).map Built.zval = _
    split_ifs with hi
    · have hne : i ≠ o := fun h ↦ hr.apart depth (Nat.le_refl depth) (h ▸ hi)
      rw [Function.update_of_ne hne, hr.zvals depth (Nat.le_refl depth) i hi]
      rfl
    · rw [hs.values i]
      by_cases hne : i = o
      · rw [hne, Function.update_self]
        exact hr.injective.extend_apply f Z .out
      · rw [Function.update_of_ne hne, Function.extend_apply']
        rintro ⟨q, rfl⟩
        by_cases hq : q = .out
        · exact hne (by rw [hq]; rfl)
        · exact hi (Place.slot_mem_frame hq)
  occupied := by
    intro i
    show (if i ∈ handleSlots depth then none else s.1.handles i).isSome = _
    split_ifs with hi
    · rw [hr.handles depth (Nat.le_refl depth) i hi]
      rfl
    · rw [hs.occupied i, Function.extend_apply']
      rintro ⟨q, rfl⟩
      exact hi q.slot_mem_frame

/-- A call, by what it does in its frame. -/
theorem walks_frame {α : Type} {m : Slot → Reading α} {q : α → Zval → Prop} (hd : depth < valueDepth)
    (hm : ∀ Z O o, Ready Z O depth o →
      Meets (At G Z O o depth (fun _ ↦ none) fun _ ↦ false) (m o) (Filled G Z O o depth q) (Lost G p)) :
    Walks G depth (fun o ↦ withFrame depth do atFrame depth; m o) q p := by
  intro Z O o hr s hs
  have hrun : Meets (Holds G Z O) (do atFrame depth; m o) (Filled G Z O o depth q) (Lost G p) :=
    Meets.bind (atFrame_meets hd) fun _ ↦ hr.start ▸ hm Z O o hr
  have hend := hrun s hs
  show Ends _ _ (withFrame depth (do atFrame depth; m o) s)
  unfold withFrame
  generalize (do atFrame depth; m o : Reading α) s = r at hend ⊢
  match r, hend with
  | (.ok a, s), ⟨v, hq, f, g, hf, hat⟩ =>
    have hclear := clearFrame_at hr hd hat
    rw [hf] at hclear
    exact ⟨v, hq, hclear⟩
  | (.error .bailout, s), hlost => exact hlost
  | (.error (.failed message), s), hlost =>
    exact ⟨clearFrame_balanced hd hlost.balanced, hlost.sound, hlost.granted⟩
  | (.error .exhausted, s), hlost =>
    exact ⟨clearFrame_balanced hd hlost.balanced, hlost.sound, hlost.granted⟩
  | (.error .outOfFrames, s), hlost => exact absurd rfl hlost.sound
  | (.error .outOfRows, s), hlost => exact absurd rfl hlost.sound
  | (.error .wrapped, s), hlost => exact absurd rfl hlost.sound
  | (.error .unending, s), hlost => exact absurd rfl hlost.sound

end Calls

section Places

variable {G : Setting} {Z : Slot → Option Zval} {O : HandleSlot → Bool} {p : Prop}
  {f : Place → Option Zval} {g : Part → Bool} {x za : Zval} {entries : List (Key × Zval)}

/-- The same state, with what its places hold. -/
theorem At.of_update (hr : Ready Z O depth o) {a : Place} {y : Option Zval} :
    Holds G (Function.update (Function.extend (Place.slot o depth) f Z) (a.slot o depth) y)
        (Function.extend (Part.slot depth) g O) =
      At G Z O o depth (Function.update f a y) g := by
  rw [update_extend hr.injective]

theorem At.of_take {a : Part} {y : Bool} :
    Holds G (Function.extend (Place.slot o depth) f Z)
        (Function.update (Function.extend (Part.slot depth) g O) (a.slot depth) y) =
      At G Z O o depth f (Function.update g a y) := by
  rw [update_extend (Part.slot_injective depth)]

variable (hr : Ready Z O depth o) (hd : depth < valueDepth)
include hr hd

theorem setZval_at (a : Place) (ha : f a = none) {b : Built} (hb : b.handles = []) :
    Meets (At G Z O o depth f g) (setZval (a.slot o depth) b)
      (fun _ ↦ At G Z O o depth (Function.update f a (some b.zval)) g) (Lost G p) := by
  have h := setZval_meets (p := p) (G := G) (O := Function.extend (Part.slot depth) g O)
    (hr.slot_mem hd a) ((hr.injective.extend_apply f Z a).trans ha) hb
  rwa [At.of_update hr] at h

theorem newZval_at (a : Place) (ha : f a = none) {make : Handle → Built}
    (hmake : ∀ h, (make h).handles = [h] ∧ (make h).zval = x) :
    Meets (At G Z O o depth f g) (newZval (a.slot o depth) make)
      (fun _ ↦ At G Z O o depth (Function.update f a (some x)) g) (Lost G p) := by
  have h := newZval_meets (p := p) (G := G) (O := Function.extend (Part.slot depth) g O)
    (hr.slot_mem hd a) ((hr.injective.extend_apply f Z a).trans ha) hmake
  rwa [At.of_update hr] at h

theorem setString_at (a : Place) (ha : f a = none) (t : List Byte) :
    Meets (At G Z O o depth f g) (setString (a.slot o depth) t)
      (fun _ ↦ At G Z O o depth (Function.update f a (some (.string t))) g) (Lost G p) :=
  newZval_at hr hd a ha fun _ ↦ ⟨rfl, rfl⟩

theorem newArray_at (a : Place) (ha : f a = none) :
    Meets (At G Z O o depth f g) (newArray (a.slot o depth))
      (fun _ ↦ At G Z O o depth (Function.update f a (some (.array []))) g) (Lost G p) :=
  newZval_at hr hd a ha fun _ ↦ ⟨rfl, rfl⟩

theorem insert_at (a v : Place) (hne : a ≠ v) (hza : f a = some za) (htable : isTable za)
    (hzv : f v = some x) (name : List Byte) :
    Meets (At G Z O o depth f g) (insert (a.slot o depth) name (v.slot o depth))
      (fun _ ↦ At G Z O o depth
        (Function.update (Function.update f v none) a (some (stored za name x))) g) (Lost G p) := by
  have h := insert_meets (p := p) (G := G) (O := Function.extend (Part.slot depth) g O)
    (hr.slot_mem hd a) (hr.slot_mem hd v) (hr.injective.ne hne)
    ((hr.injective.extend_apply f Z a).trans hza) htable
    ((hr.injective.extend_apply f Z v).trans hzv) name
  rwa [update_extend hr.injective, At.of_update hr] at h

theorem append_at (a v : Place) (hne : a ≠ v) (hza : f a = some (.array entries)) (hzv : f v = some x) :
    Meets (At G Z O o depth f g) (append (a.slot o depth) (v.slot o depth))
      (fun _ ↦ At G Z O o depth
        (Function.update (Function.update f v none) a (some ((Zval.array entries).append x))) g)
      (Lost G p) := by
  have h := append_meets (p := p) (G := G) (O := Function.extend (Part.slot depth) g O)
    (hr.slot_mem hd a) (hr.slot_mem hd v) (hr.injective.ne hne)
    ((hr.injective.extend_apply f Z a).trans hza) ((hr.injective.extend_apply f Z v).trans hzv)
  rwa [update_extend hr.injective, At.of_update hr] at h

theorem insertString_at (a : Place) (hza : f a = some za) (htable : isTable za) (name t : List Byte) :
    Meets (At G Z O o depth f g) (insertString (a.slot o depth) name t)
      (fun _ ↦ At G Z O o depth (Function.update f a (some (stored za name (.string t)))) g)
      (Lost G p) := by
  have h := insertString_meets (p := p) (G := G) (O := Function.extend (Part.slot depth) g O)
    (hr.slot_mem hd a) ((hr.injective.extend_apply f Z a).trans hza) htable name t
  rwa [At.of_update hr] at h

theorem tag_at (a : Place) (ha : f a = none) (type : List Byte) :
    Meets (At G Z O o depth f g) (tag (a.slot o depth) type)
      (fun _ ↦ At G Z O o depth (Function.update f a (some (.tag type))) g) (Lost G p) := by
  have h := tag_meets (p := p) (G := G) (O := Function.extend (Part.slot depth) g O)
    (hr.slot_mem hd a) ((hr.injective.extend_apply f Z a).trans ha) type
  rwa [At.of_update hr] at h

theorem moveZval_at (v a : Place) (hne : a ≠ v) (ha : f a = none) :
    Meets (At G Z O o depth f g) (moveZval (v.slot o depth) (a.slot o depth))
      (fun _ ↦ At G Z O o depth (Function.update (Function.update f v none) a (f v)) g)
      (Lost G p) := by
  have h := moveZval_meets (p := p) (G := G) (O := Function.extend (Part.slot depth) g O)
    (hr.slot_mem hd v) (hr.slot_mem hd a) (hr.injective.ne hne)
    ((hr.injective.extend_apply f Z a).trans ha)
  rwa [hr.injective.extend_apply, update_extend hr.injective, At.of_update hr] at h

/-- A call one level down. -/
theorem child_at {α : Type} {m : Slot → Reading α} {q : α → Zval → Prop}
    (hm : Walks G (depth + 1) m q p) (a : Place) (hfa : f a = none) :
    Meets (At G Z O o depth f g) (m (a.slot o depth))
      (fun r s ↦ ∃ v, q r v ∧ At G Z O o depth (Function.update f a (some v)) g s) (Lost G p) := by
  have h := hm _ _ _ (hr.child (g := g) hd hfa)
  simpa only [update_extend hr.injective] using h

omit hr in
theorem take_at (a : Part) (hfree : g a = false) :
    Meets (At G Z O o depth f g) (take (a.slot depth))
      (fun _ ↦ At G Z O o depth f (Function.update g a true)) (Lost G p) := by
  have h := take_meets (p := p) (G := G) (Z := Function.extend (Place.slot o depth) f Z)
    (mem_allHandleSlots hd a.slot_mem_frame)
    (((Part.slot_injective depth).extend_apply g O a).trans hfree)
  rwa [At.of_take] at h

omit hr in
theorem drop_at (a : Part) :
    Meets (At G Z O o depth f g) (drop (a.slot depth))
      (fun _ ↦ At G Z O o depth f (Function.update g a false)) (Lost G p) := by
  have h := drop_meets (p := p) (G := G) (Z := Function.extend (Place.slot o depth) f Z)
    (O := Function.extend (Part.slot depth) g O) (mem_allHandleSlots hd a.slot_mem_frame)
  rwa [At.of_take] at h

end Places

end PdoDuckdb.Structures
