import PdoDuckdb.Library.Delimited

namespace PdoDuckdb.Library

open Delimited

variable {α β γ : Type*}

/-- What reads a text from its start: the value, and the text that is left. -/
abbrev Reader (α β : Type*) := List α → Option (β × List α)

namespace Reader

def whole (p : Reader α β) (s : List α) : Option β :=
  match p s with
  | some (b, []) => some b
  | _ => none

def result (b : β) : Reader α β := fun s ↦ some (b, s)

def andThen (p : Reader α β) (f : β → Reader α γ) : Reader α γ := fun s ↦
  (p s).bind fun r ↦ f r.1 r.2

def map (f : β → γ) (p : Reader α β) : Reader α γ := p.andThen fun b ↦ result (f b)

variable [DecidableEq α]

def symbol (a : α) : Reader α Unit
  | c :: r => if c = a then some ((), r) else none
  | [] => none

def literal : List α → Reader α Unit
  | [] => result ()
  | a :: t => (symbol a).andThen fun _ ↦ literal t

def branch (a : α) (p q : Reader α β) : Reader α β
  | c :: r => if c = a then p r else q (c :: r)
  | [] => q []

omit [DecidableEq α] in
def orElse (p q : Reader α β) : Reader α β := fun s ↦ (p s).or (q s)

omit [DecidableEq α] in
def span (P : α → Bool) : Reader α (List α) := fun s ↦ some (s.takeWhile P, s.dropWhile P)

omit [DecidableEq α] in
def next (n : ℕ) : Reader α (List α) := fun s ↦
  if n ≤ s.length then some (s.take n, s.drop n) else none

end Reader

/-- Of the text `s` the reader makes `b` and leaves what comes after it, if that
ends or goes on with a delimiter. -/
def Reads (D : α → Prop) (p : Reader α β) (s : List α) (b : β) : Prop :=
  ∀ r, Ends D r → p (s ++ r) = some (b, r)

def Rejects (p : Reader α β) (s : List α) : Prop := ∀ r, p (s ++ r) = none

namespace Reads

variable {D E : α → Prop} {p q : Reader α β} {f : β → Reader α γ} {s t : List α} {a : α} {b : β} {c : γ}

theorem whole (h : Reads D p s b) : p.whole s = some b := by
  have hs := h [] Ends.nil
  rw [List.append_nil] at hs
  unfold Reader.whole
  rw [hs]

theorem result (b : β) : Reads D (Reader.result b) [] b := fun _ _ ↦ rfl

theorem andThen (hp : Reads E p s b) (hf : Reads D (f b) t c)
    (ht : ∀ r, Ends D r → Ends E (t ++ r)) : Reads D (p.andThen f) (s ++ t) c := by
  intro r hr
  unfold Reader.andThen
  rw [List.append_assoc, hp _ (ht r hr), Option.bind_some]
  exact hf r hr

/-- What follows does not matter to what was read before. -/
theorem andThen_any (hp : Reads (fun _ ↦ True) p s b) (hf : Reads D (f b) t c) :
    Reads D (p.andThen f) (s ++ t) c :=
  hp.andThen hf fun _ _ _ _ ↦ trivial

theorem andThen_nil (hp : Reads D p s b) (hf : Reads D (f b) [] c) : Reads D (p.andThen f) s c := by
  have h : Reads D (p.andThen f) (s ++ []) c := hp.andThen hf fun _ hr ↦ hr
  rwa [List.append_nil] at h

theorem map (hp : Reads D p s b) (g : β → γ) : Reads D (p.map g) s (g b) := hp.andThen_nil (result (g b))

theorem mono (hp : Reads E p s b) (h : ∀ a, D a → E a) : Reads D p s b :=
  fun r hr ↦ hp r fun a ha ↦ h a (hr a ha)

theorem span {P : α → Bool} (hs : ∀ a ∈ s, P a) : Reads (fun a ↦ ¬ P a) (Reader.span P) s s := by
  intro r hr
  unfold Reader.span
  rw [List.takeWhile_append_of_pos hs, List.dropWhile_append_of_pos hs]
  cases r with
  | nil => rw [List.takeWhile_nil, List.dropWhile_nil, List.append_nil]
  | cons a r =>
    have ha : ¬ P a := hr a rfl
    rw [List.takeWhile_cons_of_neg ha, List.dropWhile_cons_of_neg ha, List.append_nil]

theorem next {n : ℕ} (hs : s.length = n) : Reads D (Reader.next n) s s := by
  intro r _
  subst hs
  unfold Reader.next
  rw [if_pos (List.length_append ▸ Nat.le_add_right _ _), List.take_left, List.drop_left]

theorem orElse_left (hp : Reads D p s b) : Reads D (p.orElse q) s b := by
  intro r hr
  unfold Reader.orElse
  rw [hp r hr, Option.some_or]

theorem orElse_right (hp : Rejects p s) (hq : Reads D q s b) : Reads D (p.orElse q) s b := by
  intro r hr
  unfold Reader.orElse
  rw [hp r, Option.none_or]
  exact hq r hr

theorem rejects (hp : Reads D p s b) (hf : Rejects (f b) t) (ht : ∀ r, Ends D (t ++ r)) :
    Rejects (p.andThen f) (s ++ t) := by
  intro r
  unfold Reader.andThen
  rw [List.append_assoc, hp _ (ht r), Option.bind_some]
  exact hf r

variable [DecidableEq α]

theorem symbol (a : α) : Reads D (Reader.symbol a) [a] () := fun _ _ ↦ if_pos rfl

theorem symbol_rejects {a c : α} (h : c ≠ a) : Rejects (Reader.symbol a) (c :: s) := fun _ ↦ if_neg h

theorem literal (t : List α) : Reads D (Reader.literal t) t () := by
  induction t with
  | nil => exact result ()
  | cons a t ih => exact (symbol a).andThen_any ih

theorem literal_rejects {a c : α} (h : c ≠ a) : Rejects (Reader.literal (a :: t)) (c :: s) := by
  intro r
  have hsymbol := symbol_rejects (s := s) h r
  unfold Reader.literal Reader.andThen
  rw [hsymbol, Option.bind_none]

theorem branch_taken (hp : Reads D p s b) : Reads D (Reader.branch a p q) (a :: s) b := by
  intro r hr
  exact (if_pos rfl).trans (hp r hr)

theorem branch_skipped (hq : Reads D q s b) (hs : ∀ r, Ends D r → Ends (· ≠ a) (s ++ r)) :
    Reads D (Reader.branch a p q) s b := by
  intro r hr
  rw [← hq r hr]
  have hne := hs r hr
  revert hne
  cases s ++ r with
  | nil => exact fun _ ↦ rfl
  | cons c t => exact fun hne ↦ if_neg (hne c rfl)

end Reads

end PdoDuckdb.Library
