import Mathlib.Data.List.Basic
import Mathlib.Data.List.TakeWhile

namespace PdoDuckdb.Library.Delimited

variable {α β γ : Type*} {D : α → Prop}

def Ends (D : α → Prop) (r : List α) : Prop := ∀ c ∈ r.head?, D c

def Opens (D : α → Prop) (t : List α) : Prop := ∃ c ∈ t.head?, ¬ D c

/-- Where the texts of `a` and `b` begin two equal inputs, and a delimiter or the end
follows each, the two are the same and so is what follows. -/
def Apart (D : α → Prop) (text : β → List α) (a b : β) : Prop :=
  ∀ r r', Ends D r → Ends D r' → text a ++ r = text b ++ r' → a = b ∧ r = r'

theorem Ends.cons {c : α} (h : D c) (r : List α) : Ends D (c :: r) := by
  intro c' hc'
  cases hc'
  exact h

theorem Ends.nil : Ends D [] := fun _ h ↦ absurd h (Option.not_mem_none _)

theorem Opens.append {t : List α} (h : Opens D t) (r : List α) : Opens D (t ++ r) := by
  obtain ⟨c, hc, hD⟩ := h
  exact ⟨c, List.mem_head?_append_of_mem_head? hc, hD⟩

theorem Opens.not_ends {t : List α} (h : Opens D t) : ¬ Ends D t := by
  obtain ⟨c, hc, hD⟩ := h
  exact fun hends ↦ hD (hends c hc)

/-- Texts without a delimiter in them end at the first one. -/
theorem eq_of_plain {s t r r' : List α} (hs : ∀ c ∈ s, ¬ D c) (ht : ∀ c ∈ t, ¬ D c)
    (hr : Ends D r) (hr' : Ends D r') (h : s ++ r = t ++ r') : s = t ∧ r = r' := by
  induction s generalizing t with
  | nil =>
    cases t with
    | nil => exact ⟨rfl, h⟩
    | cons c t =>
      rw [List.nil_append] at h
      exact absurd (hr c (by simp [h])) (ht c List.mem_cons_self)
  | cons c s ih =>
    cases t with
    | nil =>
      rw [List.nil_append] at h
      exact absurd (hr' c (by simp [← h])) (hs c List.mem_cons_self)
    | cons d t =>
      obtain ⟨hcd, htail⟩ := List.cons.inj h
      obtain ⟨hst, hrr⟩ := ih (fun e he ↦ hs e (List.mem_cons_of_mem _ he))
        (fun e he ↦ ht e (List.mem_cons_of_mem _ he)) htail
      exact ⟨by rw [hcd, hst], hrr⟩

section Apart

variable {text : β → List α} {a b : β}

theorem Apart.symm (h : Apart D text a b) : Apart D text b a := by
  intro r r' hr hr' heq
  obtain ⟨hab, hrr⟩ := h r' r hr' hr heq.symm
  exact ⟨hab.symm, hrr.symm⟩

/-- Texts that start differently are never mistaken for each other. -/
theorem apart_of_head_ne {c d : α} (hc : c ∈ (text a).head?) (hd : d ∈ (text b).head?)
    (hne : c ≠ d) : Apart D text a b := by
  intro r r' _ _ heq
  have hc' := List.mem_head?_append_of_mem_head? (t := r) hc
  have hd' := List.mem_head?_append_of_mem_head? (t := r') hd
  rw [heq] at hc'
  exact absurd (Option.mem_unique hc' hd') hne

/-- A text of two parts with a delimiter between them. -/
theorem Apart.pair {first : β → List α} {second : γ → List α} {b' : β} {c c' : γ} {d : α}
    (hd : D d) (hfirst : Apart D first b b') (hsecond : Apart D second c c') :
    Apart D (fun e : β × γ ↦ first e.1 ++ d :: second e.2) (b, c) (b', c') := by
  intro r r' hr hr' heq
  simp only [List.append_assoc, List.cons_append] at heq
  obtain ⟨hb, hrest⟩ := hfirst _ _ (.cons hd _) (.cons hd _) heq
  obtain ⟨hc, hrr⟩ := hsecond r r' hr hr' (List.cons.inj hrest).2
  exact ⟨by rw [hb, hc], hrr⟩

/-- A text after a fixed name. -/
theorem Apart.named (name : γ → List α) (n : γ) (h : Apart D text a b) :
    Apart D (fun f : γ × β ↦ name f.1 ++ text f.2) (n, a) (n, b) := by
  intro r r' hr hr' heq
  simp only [List.append_assoc] at heq
  obtain ⟨rfl, rfl⟩ := h r r' hr hr' (List.append_cancel_left heq)
  exact ⟨rfl, rfl⟩

end Apart

section Joined

variable {text : β → List α} {s close : α} {sep : List α}

/-- What follows the first of some texts that are joined and closed. -/
def following (text : β → List α) (sep : List α) (close : α) (r : List α) : List β → List α
  | [] => close :: r
  | b :: bs => sep ++ (text b ++ following text sep close r bs)

theorem intercalate_append (text : β → List α) (sep : List α) (close : α) (r : List α) (b : β)
    (bs : List β) : sep.intercalate ((b :: bs).map text) ++ close :: r =
      text b ++ following text sep close r bs := by
  induction bs generalizing b with
  | nil => simp [following]
  | cons c bs ih =>
    have h := ih c
    rw [List.map_cons] at h
    rw [List.map_cons, List.map_cons, List.intercalate_cons_cons, List.append_assoc, h]
    simp [following]

theorem ends_following (hs : D s) (hclose : D close) (r : List α) (bs : List β) :
    Ends D (following text (s :: sep) close r bs) := by
  cases bs with
  | nil => exact .cons hclose r
  | cons b bs => exact .cons hs _

theorem following_inj (hs : D s) (hclose : D close) (hne : close ≠ s) {as bs : List β}
    {r r' : List α}
    (h : ∀ (i : ℕ) a b, as[i]? = some a → bs[i]? = some b → Apart D text a b)
    (heq : following text (s :: sep) close r as = following text (s :: sep) close r' bs) :
    as = bs ∧ r = r' := by
  induction as generalizing bs with
  | nil =>
    cases bs with
    | nil => exact ⟨rfl, (List.cons.inj heq).2⟩
    | cons b bs => exact absurd (List.cons.inj heq).1 hne
  | cons a as ih =>
    cases bs with
    | nil => exact absurd (List.cons.inj heq).1.symm hne
    | cons b bs =>
      have htexts := List.append_cancel_left heq
      obtain ⟨hab, htail⟩ := h 0 a b rfl rfl _ _ (ends_following hs hclose r as)
        (ends_following hs hclose r' bs) htexts
      obtain ⟨hrest, hrr⟩ := ih (fun i a b ha hb ↦ h (i + 1) a b ha hb) htail
      exact ⟨by rw [hab, hrest], hrr⟩

/-- Joined and closed texts give back their parts, when those are apart place by place. -/
theorem joined_inj (hs : D s) (hclose : D close) (hne : close ≠ s) {as bs : List β}
    {r r' : List α} (hopens : ∀ a ∈ as, Opens D (text a)) (hopens' : ∀ b ∈ bs, Opens D (text b))
    (h : ∀ (i : ℕ) a b, as[i]? = some a → bs[i]? = some b → Apart D text a b)
    (heq : (s :: sep).intercalate (as.map text) ++ close :: r =
      (s :: sep).intercalate (bs.map text) ++ close :: r') : as = bs ∧ r = r' := by
  cases as with
  | nil =>
    cases bs with
    | nil => exact ⟨rfl, by simpa using heq⟩
    | cons b bs =>
      have hends : Ends D (close :: r) := .cons hclose r
      rw [intercalate_append] at heq
      simp only [List.map_nil, List.intercalate_nil, List.nil_append] at heq
      rw [heq] at hends
      exact absurd hends ((hopens' b List.mem_cons_self).append _).not_ends
  | cons a as =>
    cases bs with
    | nil =>
      have hends : Ends D (close :: r') := .cons hclose r'
      rw [intercalate_append] at heq
      simp only [List.map_nil, List.intercalate_nil, List.nil_append] at heq
      rw [← heq] at hends
      exact absurd hends ((hopens a List.mem_cons_self).append _).not_ends
    | cons b bs =>
      rw [intercalate_append, intercalate_append] at heq
      obtain ⟨hab, htail⟩ := h 0 a b rfl rfl _ _ (ends_following hs hclose r as)
        (ends_following hs hclose r' bs) heq
      obtain ⟨hrest, hrr⟩ := following_inj hs hclose hne
        (fun i a b ha hb ↦ h (i + 1) a b ha hb) htail
      exact ⟨by rw [hab, hrest], hrr⟩

end Joined

end PdoDuckdb.Library.Delimited
