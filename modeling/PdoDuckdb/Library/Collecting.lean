import Mathlib.Data.List.Perm.Basic

namespace PdoDuckdb.Library.Collecting

variable {α β γ : Type*}

/-- Two traversals of one list, the second through what the first finds. -/
theorem mapM_eq_mapM {f : α → Option β} {g : α → Option γ} {k : β → Option γ} {l : List α}
    {bs : List β} (h : l.mapM f = some bs) (hk : ∀ a ∈ l, ∀ b, f a = some b → g a = k b) :
    l.mapM g = bs.mapM k := by
  induction l generalizing bs with
  | nil =>
    simp only [List.mapM_nil, Option.pure_def, Option.some.injEq] at h
    subst h
    rfl
  | cons a l ih =>
    simp only [List.mapM_cons, Option.bind_eq_bind, Option.bind_eq_some_iff, Option.pure_def,
      Option.some.injEq] at h
    obtain ⟨b, hb, bs, hbs, rfl⟩ := h
    have ha := hk a List.mem_cons_self b hb
    have hl := ih hbs fun a ha ↦ hk a (List.mem_cons_of_mem _ ha)
    simp only [List.mapM_cons, ha, hl]

theorem length_of_mapM {f : α → Option β} {l : List α} {bs : List β} (h : l.mapM f = some bs) :
    bs.length = l.length := by
  induction l generalizing bs with
  | nil =>
    simp only [List.mapM_nil, Option.pure_def, Option.some.injEq] at h
    rw [← h]
    rfl
  | cons a l ih =>
    simp only [List.mapM_cons, Option.bind_eq_bind, Option.bind_eq_some_iff, Option.pure_def,
      Option.some.injEq] at h
    obtain ⟨b, -, bs, hbs, rfl⟩ := h
    rw [List.length_cons, List.length_cons, ih hbs]

theorem exists_of_mem_mapM {f : α → Option β} {l : List α} {bs : List β} (h : l.mapM f = some bs)
    {b : β} (hb : b ∈ bs) : ∃ a ∈ l, f a = some b := by
  induction l generalizing bs with
  | nil =>
    simp only [List.mapM_nil, Option.pure_def, Option.some.injEq] at h
    rw [← h] at hb
    exact absurd hb List.not_mem_nil
  | cons a l ih =>
    simp only [List.mapM_cons, Option.bind_eq_bind, Option.bind_eq_some_iff, Option.pure_def,
      Option.some.injEq] at h
    obtain ⟨b', hb', bs, hbs, rfl⟩ := h
    rcases List.mem_cons.mp hb with rfl | hb
    · exact ⟨a, List.mem_cons_self, hb'⟩
    · obtain ⟨a', ha', hfa⟩ := ih hbs hb
      exact ⟨a', List.mem_cons_of_mem a ha', hfa⟩

theorem mapM_concat {f : α → Option β} {l : List α} {bs : List β} {a : α} {b : β}
    (h : l.mapM f = some bs) (ha : f a = some b) : (l ++ [a]).mapM f = some (bs ++ [b]) := by
  simp [List.mapM_append, h, ha]

theorem mapM_eq_none {f : α → Option β} {l : List α} {a : α} (hmem : a ∈ l) (ha : f a = none) :
    l.mapM f = none := by
  induction l with
  | nil => cases hmem
  | cons a' l ih =>
    rcases List.mem_cons.mp hmem with rfl | hmem
    · simp [List.mapM_cons, ha]
    · simp [List.mapM_cons, ih hmem]

theorem mapM_eq_some {f : α → Option β} {l : List α} {bs : List β} :
    l.mapM f = some bs ↔ List.Forall₂ (fun a b ↦ f a = some b) l bs := by
  induction l generalizing bs with
  | nil =>
    cases bs <;> simp
  | cons a l ih =>
    cases bs with
    | nil =>
      simp only [List.mapM_cons, Option.bind_eq_bind, Option.bind_eq_some_iff, Option.pure_def]
      simp
    | cons b bs =>
      rw [List.forall₂_cons, ← ih]
      simp only [List.mapM_cons, Option.bind_eq_bind, Option.bind_eq_some_iff, Option.pure_def,
        Option.some.injEq, List.cons.injEq]
      constructor
      · rintro ⟨b', hb, bs', hbs, rfl, rfl⟩
        exact ⟨hb, hbs⟩
      · rintro ⟨hb, hbs⟩
        exact ⟨b, hb, bs, hbs, rfl, rfl⟩

/-- A traversal in another order. -/
theorem mapM_perm {f : α → Option β} {l l' : List α} {bs : List β} (hl : l'.Perm l)
    (h : l.mapM f = some bs) : ∃ bs', l'.mapM f = some bs' ∧ bs'.Perm bs := by
  obtain ⟨bs', hbs', hperm⟩ := List.perm_comp_forall₂ hl (mapM_eq_some.mp h)
  exact ⟨bs', mapM_eq_some.mpr hbs', hperm⟩

theorem exists_map_of_perm {f : α → β} {l : List α} {bs : List β} (h : bs.Perm (l.map f)) :
    ∃ l' : List α, bs = l'.map f ∧ l'.Perm l :=
  (iff_of_eq (congrFun₂ (List.eq_map_comp_perm f) bs l)).mpr h

/-- A traversal that gives up at the members with a property. -/
theorem mapM_guard (p : α → Bool) (t : α → β) (l : List α) :
    l.mapM (fun a ↦ if p a then none else some (t a)) =
      if l.any p then none else some (l.map t) := by
  induction l with
  | nil => rfl
  | cons a l ih =>
    cases hp : p a with
    | true => simp [hp]
    | false =>
      cases hany : l.any p <;> simp [hp, ih, hany]

section Decided

variable {p q : Prop} {P : α → Prop} {Q : α → Prop} {R : β → Prop} {r : Option α}

/-- A partial result that is there exactly under `p`, and then has `Q`. -/
def Decided (p : Prop) (Q : α → Prop) (r : Option α) : Prop :=
  (p → ∃ a, r = some a ∧ Q a) ∧ (¬ p → r = none)

namespace Decided

theorem found_iff (h : Decided p Q r) : (∃ a, r = some a ∧ Q a) ↔ p := by
  refine ⟨fun ⟨a, ha, _⟩ ↦ ?_, h.1⟩
  by_contra hp
  rw [h.2 hp] at ha
  cases ha

theorem found {a : α} (hp : p) (ha : Q a) : Decided p Q (some a) :=
  ⟨fun _ ↦ ⟨a, rfl, ha⟩, fun h ↦ absurd hp h⟩

theorem missing (hp : ¬ p) : Decided p Q none := ⟨fun h ↦ absurd h hp, fun _ ↦ rfl⟩

theorem congr (h : Decided p Q r) (hpq : p ↔ q) : Decided q Q r :=
  ⟨fun hq ↦ h.1 (hpq.mpr hq), fun hq ↦ h.2 fun hp ↦ hq (hpq.mp hp)⟩

theorem imp {Q' : α → Prop} (h : Decided p Q r) (hQ : ∀ a, Q a → Q' a) : Decided p Q' r :=
  ⟨fun hp ↦ (h.1 hp).imp fun a ha ↦ ⟨ha.1, hQ a ha.2⟩, h.2⟩

theorem bind {f : α → Option β} (h : Decided p P r)
    (hf : ∀ a, P a → ∃ b, f a = some b ∧ R b) : Decided p R (r.bind f) := by
  refine ⟨fun hp ↦ ?_, fun hp ↦ by rw [h.2 hp]; rfl⟩
  obtain ⟨a, rfl, ha⟩ := h.1 hp
  exact hf a ha

theorem map {f : α → β} (h : Decided p P r) (hf : ∀ a, P a → R (f a)) : Decided p R (r.map f) := by
  rw [Option.map_eq_bind]
  exact h.bind fun a ha ↦ ⟨f a, rfl, hf a ha⟩

/-- Two results, the second of which is there only with the first. -/
theorem pair {β' : Type*} {R' : β' → Prop} {s : Option β} {f : α → β → β'} (hr : Decided p P r)
    (hs : Decided q R s) (hqp : q → p) (hf : ∀ a b, P a → R b → R' (f a b)) :
    Decided q R' (r.bind fun a ↦ s.map (f a)) := by
  constructor
  · intro hq
    obtain ⟨a, rfl, ha⟩ := hr.1 (hqp hq)
    obtain ⟨b, rfl, hb⟩ := hs.1 hq
    exact ⟨f a b, rfl, hf a b ha hb⟩
  · intro hq
    rw [hs.2 hq]
    cases r <;> rfl

/-- A traversal succeeds where every member of it does. -/
theorem mapM {p : γ → Prop} {R : γ → β → Prop} {f : α → Option β} {cs : List γ} {l : List α}
    (h : List.Forall₂ (fun c a ↦ Decided (p c) (R c) (f a)) cs l) :
    Decided (∀ c ∈ cs, p c) (List.Forall₂ R cs) (l.mapM f) := by
  induction h with
  | nil => exact found (by simp) .nil
  | @cons c a cs l ha _ ih =>
    rw [List.forall_mem_cons, List.mapM_cons]
    constructor
    · rintro ⟨hc, hcs⟩
      obtain ⟨b, hb, hR⟩ := ha.1 hc
      obtain ⟨bs, hbs, hall⟩ := ih.1 hcs
      exact ⟨b :: bs, by rw [hb, hbs]; rfl, .cons hR hall⟩
    · intro hne
      by_cases hc : p c
      · obtain ⟨b, hb, -⟩ := ha.1 hc
        rw [hb, ih.2 fun hcs ↦ hne ⟨hc, hcs⟩]
        rfl
      · rw [ha.2 hc]
        rfl

theorem mapM_perm {f : α → Option β} {l l' : List α} {R : List β → Prop} (hl : l'.Perm l)
    (h : Decided p R (l.mapM f)) : Decided p (fun bs' ↦ ∃ bs, bs'.Perm bs ∧ R bs) (l'.mapM f) := by
  constructor
  · intro hp
    obtain ⟨bs, hbs, hR⟩ := h.1 hp
    obtain ⟨bs', hbs', hperm⟩ := Collecting.mapM_perm hl hbs
    exact ⟨bs', hbs', bs, hperm, hR⟩
  · intro hp
    cases hl' : l'.mapM f with
    | none => rfl
    | some bs' =>
      obtain ⟨bs, hbs, -⟩ := Collecting.mapM_perm hl.symm hl'
      rw [h.2 hp] at hbs
      cases hbs

end Decided

end Decided

end PdoDuckdb.Library.Collecting
