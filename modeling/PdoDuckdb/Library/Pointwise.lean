import Mathlib.Data.List.Forall2

namespace PdoDuckdb.Library.Pointwise

variable {α β γ : Type*} {R : α → β → Prop} {S : β → γ → Prop} {T : α → γ → Prop}
  {l : List α} {m : List β} {n : List γ}

theorem comp (hR : ∀ a b c, R a b → S b c → T a c) (h : List.Forall₂ R l m)
    (h' : List.Forall₂ S m n) : List.Forall₂ T l n := by
  induction h generalizing n with
  | nil =>
    cases h'
    exact .nil
  | cons hab _ ih =>
    cases h' with
    | cons hbc h' => exact .cons (hR _ _ _ hab hbc) (ih h')

theorem exists_right (h : List.Forall₂ R l m) {a : α} (ha : a ∈ l) : ∃ b ∈ m, R a b := by
  induction h with
  | nil => cases ha
  | @cons x y l m hxy _ ih =>
    rcases List.mem_cons.mp ha with rfl | ha
    · exact ⟨y, List.mem_cons_self, hxy⟩
    · obtain ⟨b, hb, hab⟩ := ih ha
      exact ⟨b, List.mem_cons_of_mem y hb, hab⟩

theorem exists_left (h : List.Forall₂ R l m) {b : β} (hb : b ∈ m) : ∃ a ∈ l, R a b :=
  exists_right h.flip hb

theorem getElem?_left (h : List.Forall₂ R l m) {i : ℕ} {b : β} (hb : m[i]? = some b) :
    ∃ a, l[i]? = some a ∧ R a b := by
  induction h generalizing i with
  | nil => cases hb
  | @cons x y l m hxy _ ih =>
    cases i with
    | zero =>
      cases hb
      exact ⟨x, rfl, hxy⟩
    | succ i => exact ih hb

theorem getElem?_right (h : List.Forall₂ R l m) {i : ℕ} {a : α} (ha : l[i]? = some a) :
    ∃ b, m[i]? = some b ∧ R a b :=
  getElem?_left h.flip ha

/-- A list and the places of its members. -/
theorem forall₂_range {P : α → ℕ → Prop} (h : ∀ i a, l[i]? = some a → P a i) :
    List.Forall₂ P l (List.range l.length) := by
  refine List.forall₂_iff_get.mpr ⟨(List.length_range ..).symm, fun i h₁ h₂ ↦ ?_⟩
  rw [List.get_eq_getElem, List.get_eq_getElem, List.getElem_range]
  exact h i _ (List.getElem?_eq_getElem h₁)

theorem map_eq {δ : Type*} {f : α → δ} {g : β → δ} (hR : ∀ a b, R a b → f a = g b)
    (h : List.Forall₂ R l m) : l.map f = m.map g := by
  induction h with
  | nil => rfl
  | cons hab _ ih => rw [List.map_cons, List.map_cons, hR _ _ hab, ih]

end PdoDuckdb.Library.Pointwise
