import Mathlib.Data.List.Basic

namespace PdoDuckdb.Library

universe u

/-- A computation on a state that ends in a result or by an exit. -/
def Exits (ε σ α : Type u) : Type u := σ → Except ε α × σ

namespace Exits

variable {ε σ τ α β : Type u}

def result (a : α) : Exits ε σ α := fun s ↦ (.ok a, s)

def exit (e : ε) : Exits ε σ α := fun s ↦ (.error e, s)

def andThen (m : Exits ε σ α) (f : α → Exits ε σ β) : Exits ε σ β := fun s ↦
  match m s with
  | (.ok a, s) => f a s
  | (.error e, s) => (.error e, s)

instance : Monad (Exits ε σ) where
  pure := result
  bind := andThen

def step (f : σ → α × σ) : Exits ε σ α := fun s ↦ (.ok (f s).1, (f s).2)

def within (m : Exits ε σ α) : Exits ε (τ × σ) α := fun s ↦ ((m s.2).1, s.1, (m s.2).2)

/-- A run with a state of its own, which is closed however the run ends. -/
def enclosed (t : τ) (close : τ → σ → σ) (m : Exits ε (τ × σ) α) : Exits ε σ α := fun s ↦
  ((m (t, s)).1, close (m (t, s)).2.1 (m (t, s)).2.2)

/-- A run whose exits first put the state in order. -/
def guarded (m : Exits ε σ α) (clean : σ → σ) : Exits ε σ α := fun s ↦
  match m s with
  | (.ok a, s) => (.ok a, s)
  | (.error e, s) => (.error e, clean s)

def caught (m : Exits ε σ α) (handle : ε → Exits ε σ α) : Exits ε σ α := fun s ↦
  match m s with
  | (.ok a, s) => (.ok a, s)
  | (.error e, s) => handle e s

def turns (turn : Exits ε σ (Option α)) : ℕ → Exits ε σ (Option α)
  | 0 => pure none
  | n + 1 => do
    match ← turn with
    | none => turns turn n
    | some a => pure (some a)

def each (f : α → Exits ε σ PUnit) : List α → Exits ε σ PUnit
  | [] => pure ⟨⟩
  | a :: l => do
    f a
    each f l

def Ends (Q : α → σ → Prop) (R : ε → σ → Prop) : Except ε α × σ → Prop
  | (.ok a, s) => Q a s
  | (.error e, s) => R e s

def Meets (P : σ → Prop) (m : Exits ε σ α) (Q : α → σ → Prop) (R : ε → σ → Prop) : Prop :=
  ∀ s, P s → Ends Q R (m s)

variable {P P' : σ → Prop} {m : Exits ε σ α} {Q Q' : α → σ → Prop} {R R' : ε → σ → Prop}

theorem Ends.mono {r : Except ε α × σ} (h : Ends Q' R' r) (hQ : ∀ a s, Q' a s → Q a s)
    (hR : ∀ e s, R' e s → R e s) : Ends Q R r := by
  match r, h with
  | (.ok a, s), h => exact hQ a s h
  | (.error e, s), h => exact hR e s h

namespace Meets

theorem pure {a : α} (h : ∀ s, P s → Q a s) : Meets P (pure a : Exits ε σ α) Q R := h

theorem exit {e : ε} (h : ∀ s, P s → R e s) : Meets P (exit e) Q R := h

theorem step {f : σ → α × σ} (h : ∀ s, P s → Q (f s).1 (f s).2) : Meets P (step f) Q R := h

theorem bind {S : β → σ → Prop} {f : α → Exits ε σ β} (hm : Meets P m Q R)
    (hf : ∀ a, Meets (Q a) (f a) S R) : Meets P (m >>= f) S R := by
  intro s hs
  have h := hm s hs
  change Ends S R (andThen m f s)
  unfold andThen
  match m s, h with
  | (.ok a, s), h => exact hf a s h
  | (.error e, s), h => exact h

theorem mono (hm : Meets P' m Q' R') (hP : ∀ s, P s → P' s) (hQ : ∀ a s, Q' a s → Q a s)
    (hR : ∀ e s, R' e s → R e s) : Meets P m Q R :=
  fun s hs ↦ (hm s (hP s hs)).mono hQ hR

theorem pre (hm : Meets P' m Q R) (hP : ∀ s, P s → P' s) : Meets P m Q R :=
  hm.mono hP (fun _ _ h ↦ h) fun _ _ h ↦ h

theorem post (hm : Meets P m Q' R) (hQ : ∀ a s, Q' a s → Q a s) : Meets P m Q R :=
  hm.mono (fun _ h ↦ h) hQ fun _ _ h ↦ h

/-- What the precondition gives for every state can be used. -/
theorem assume {p : Prop} (hp : ∀ s, P s → p) (hm : p → Meets P m Q R) : Meets P m Q R :=
  fun s hs ↦ hm (hp s hs) s hs

theorem exists_pre {ι : Type u} {P : ι → σ → Prop} (h : ∀ i, Meets (P i) m Q R) :
    Meets (fun s ↦ ∃ i, P i s) m Q R :=
  fun s ⟨i, hi⟩ ↦ h i s hi

/-- A choice that the precondition makes, and what it says about it. -/
theorem chosen {ι : Type u} {c : ι → Prop} {P : ι → σ → Prop} (h : ∀ i, c i → Meets (P i) m Q R) :
    Meets (fun s ↦ ∃ i, c i ∧ P i s) m Q R :=
  fun s ⟨i, hc, hi⟩ ↦ h i hc s hi

theorem given {p : Prop} (h : p → Meets P m Q R) : Meets (fun s ↦ p ∧ P s) m Q R :=
  fun s ⟨hp, hs⟩ ↦ h hp s hs

theorem within {P : τ × σ → Prop} {Q : α → τ × σ → Prop} {R : ε → τ × σ → Prop}
    (hm : ∀ t, Meets (fun s ↦ P (t, s)) m (fun a s ↦ Q a (t, s)) (fun e s ↦ R e (t, s))) :
    Meets P (within m) Q R := by
  rintro ⟨t, s⟩ hs
  have h := hm t s hs
  unfold Exits.within
  dsimp only
  match m s, h with
  | (.ok a, s), h => exact h
  | (.error e, s), h => exact h

theorem enclosed {t : τ} {close : τ → σ → σ} {m : Exits ε (τ × σ) α}
    (hm : Meets (fun s ↦ s.1 = t ∧ P s.2) m (fun a s ↦ Q a (close s.1 s.2))
      (fun e s ↦ R e (close s.1 s.2))) : Meets P (enclosed t close m) Q R := by
  intro s hs
  have h := hm (t, s) ⟨rfl, hs⟩
  unfold Exits.enclosed
  match m (t, s), h with
  | (.ok a, s), h => exact h
  | (.error e, s), h => exact h

theorem guarded {clean : σ → σ} (hm : Meets P m Q fun e s ↦ R e (clean s)) :
    Meets P (guarded m clean) Q R := by
  intro s hs
  have h := hm s hs
  unfold Exits.guarded
  match m s, h with
  | (.ok a, s), h => exact h
  | (.error e, s), h => exact h

theorem caught {handle : ε → Exits ε σ α} {S : ε → σ → Prop} (hm : Meets P m Q S)
    (hh : ∀ e, Meets (S e) (handle e) Q R) :
    Meets P (caught m handle) Q R := by
  intro s hs
  have h := hm s hs
  unfold Exits.caught
  match m s, h with
  | (.ok a, s), h => exact h
  | (.error e, s), h => exact hh e s h

/-- A loop whose turns keep an invariant. -/
theorem turns {turn : Exits ε σ (Option α)} {Q : α → σ → Prop} {n : ℕ}
    (hturn : Meets P turn (fun r s ↦ match r with
      | none => P s
      | some a => Q a s) R) :
    Meets P (turns turn n) (fun r s ↦ match r with
      | none => P s
      | some a => Q a s) R := by
  induction n with
  | zero => exact Meets.pure fun s hs ↦ hs
  | succ n ih =>
    refine Meets.bind hturn fun r ↦ ?_
    match r with
    | none => exact ih
    | some a => exact Meets.pure fun s hs ↦ hs

def Turned (P : σ → Prop) (Q : α → σ → Prop) : Option α → σ → Prop
  | none => P
  | some a => Q a

/-- A loop whose turns lessen a measure is left before they are over. -/
theorem turns_measured {turn : Exits ε σ (Option α)} {Q : α → σ → Prop} {μ : σ → ℕ} {n : ℕ}
    (hturn : ∀ k, Meets (fun s ↦ P s ∧ μ s = k) turn (Turned (fun s ↦ P s ∧ μ s < k) Q) R) :
    Meets (fun s ↦ P s ∧ μ s < n) (Exits.turns turn n) (fun r s ↦ ∃ a, r = some a ∧ Q a s) R := by
  induction n with
  | zero => exact fun s hs ↦ absurd hs.2 (Nat.not_lt_zero _)
  | succ n ih =>
    intro s hs
    refine Meets.bind (hturn (μ s)) (fun r ↦ ?_) s ⟨hs.1, rfl⟩
    match r with
    | none => exact ih.pre fun t ht ↦ ⟨ht.1, Nat.lt_of_lt_of_le ht.2 (Nat.le_of_lt_succ hs.2)⟩
    | some a => exact Meets.pure fun t ht ↦ ⟨a, rfl, ht⟩

/-- A loop, by what each turn carries from the members done to one more. -/
theorem each {f : α → Exits ε σ PUnit} {I : List α → σ → Prop} {l : List α}
    (hf : ∀ done a rest, l = done ++ a :: rest →
      Meets (I done) (f a) (fun _ ↦ I (done ++ [a])) R) :
    Meets (I []) (each f l) (fun _ ↦ I l) R := by
  suffices h : ∀ rest done, l = done ++ rest → Meets (I done) (Exits.each f rest) (fun _ ↦ I l) R from
    h l [] rfl
  intro rest
  induction rest with
  | nil =>
    intro done hl
    rw [List.append_nil] at hl
    subst hl
    exact Meets.pure fun s hs ↦ hs
  | cons a rest ih =>
    intro done hl
    refine Meets.bind (hf done a rest hl) fun _ ↦ ih (done ++ [a]) ?_
    rw [hl, List.append_assoc, List.singleton_append]

end Meets

end Exits

end PdoDuckdb.Library
