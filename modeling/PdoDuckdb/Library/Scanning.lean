import Mathlib.Data.List.Basic

namespace PdoDuckdb.Library.Scanning

variable {α κ : Type*}

/-- A stretch of the input together with what the scanner took it for. -/
structure Lexeme (α κ : Type*) where
  kind : κ
  text : List α
deriving DecidableEq, Repr

/-- The body of a scanning loop. A step sees the symbol before the cursor and
the whole rest of the input, and says what starts here and how long it is. -/
structure Scanner (α κ : Type*) where
  step : Option α → List α → κ × ℕ
  pos : ∀ p a s, 0 < (step p (a :: s)).2
  le : ∀ p s, (step p s).2 ≤ s.length

def after (p : Option α) (text : List α) : Option α := text.getLast?.or p

@[simp] theorem after_nil (p : Option α) : after p [] = p := by simp [after]

theorem after_append (p : Option α) (s t : List α) : after p (s ++ t) = after (after p s) t := by
  simp [after, List.getLast?_append, Option.or_assoc]

theorem after_of_ne_nil {p q : Option α} {text : List α} (h : text ≠ []) :
    after p text = after q text := by
  simp [after, List.getLast?_eq_some_getLast h]

def source (ls : List (Lexeme α κ)) : List α := ls.flatMap (·.text)

@[simp] theorem source_nil : source ([] : List (Lexeme α κ)) = [] := rfl

@[simp] theorem source_cons (l : Lexeme α κ) (ls : List (Lexeme α κ)) :
    source (l :: ls) = l.text ++ source ls := rfl

@[simp] theorem source_append (ls ms : List (Lexeme α κ)) :
    source (ls ++ ms) = source ls ++ source ms := by simp [source]

namespace Scanner

variable (S : Scanner α κ)

/-- The loop itself. Every step consumes, so the length of the input is fuel
enough. -/
def run : ℕ → Option α → List α → List (Lexeme α κ)
  | 0, _, _ => []
  | _ + 1, _, [] => []
  | n + 1, p, a :: s =>
    let r := S.step p (a :: s)
    let text := (a :: s).take r.2
    ⟨r.1, text⟩ :: run n (after p text) ((a :: s).drop r.2)

def scan (s : List α) : List (Lexeme α κ) := S.run s.length none s

/-- A list of lexemes is what the scanner makes of its own source. -/
inductive Lexes : Option α → List (Lexeme α κ) → Prop
  | nil (p : Option α) : Lexes p []
  | cons {p : Option α} {l : Lexeme α κ} {ls : List (Lexeme α κ)} :
      l.text ≠ [] → S.step p (l.text ++ source ls) = (l.kind, l.text.length) →
      Lexes (after p l.text) ls → Lexes p (l :: ls)

theorem run_lexes (n : ℕ) (p : Option α) (s : List α) (h : s.length ≤ n) :
    S.Lexes p (S.run n p s) ∧ source (S.run n p s) = s := by
  induction n generalizing p s with
  | zero =>
    have hs : s = [] := List.length_eq_zero_iff.mp (by omega)
    exact ⟨.nil p, hs.symm⟩
  | succ n ih =>
    cases s with
    | nil => exact ⟨.nil p, rfl⟩
    | cons a s =>
      have hpos := S.pos p a s
      have hle := S.le p (a :: s)
      have hlen : ((a :: s).drop (S.step p (a :: s)).2).length ≤ n := by
        simp only [List.length_drop, List.length_cons] at *
        omega
      obtain ⟨hl, hs⟩ := ih (after p ((a :: s).take (S.step p (a :: s)).2)) _ hlen
      simp only [run]
      refine ⟨.cons ?_ ?_ hl, ?_⟩
      · simp only [ne_eq, List.take_eq_nil_iff, not_or]
        exact ⟨by omega, List.cons_ne_nil a s⟩
      · rw [hs, List.take_append_drop, List.length_take, Nat.min_eq_left hle]
      · rw [source_cons, hs, List.take_append_drop]

theorem Lexes.run_eq {S : Scanner α κ} {p : Option α} {ls : List (Lexeme α κ)}
    (h : S.Lexes p ls) (n : ℕ) (hn : (source ls).length ≤ n) : S.run n p (source ls) = ls := by
  induction h generalizing n with
  | nil p => cases n <;> rfl
  | @cons p l ls hne hstep hrest ih =>
    obtain ⟨a, t, ht⟩ := List.exists_cons_of_ne_nil hne
    rw [source_cons, List.length_append] at hn
    cases n with
    | zero => simp [ht] at hn
    | succ n =>
      have hn' : (source ls).length ≤ n := by
        simp only [ht, List.length_cons] at hn
        omega
      have hs : source (l :: ls) = a :: (t ++ source ls) := by
        rw [source_cons, ht, List.cons_append]
      have hs' : a :: (t ++ source ls) = l.text ++ source ls := by
        rw [ht, List.cons_append]
      rw [hs, run, hs', hstep, List.take_left, List.drop_left, ih n hn']

/-- What the scanner returns is the only list of lexemes with that source that
it would cut in the same places. -/
theorem run_eq_iff {n : ℕ} {p : Option α} {s : List α} {ls : List (Lexeme α κ)}
    (h : s.length ≤ n) : S.run n p s = ls ↔ S.Lexes p ls ∧ source ls = s := by
  constructor
  · rintro rfl
    exact S.run_lexes n p s h
  · rintro ⟨hl, rfl⟩
    exact hl.run_eq n h

theorem scan_eq_iff {s : List α} {ls : List (Lexeme α κ)} :
    S.scan s = ls ↔ S.Lexes none ls ∧ source ls = s := S.run_eq_iff (Nat.le_refl _)

theorem scan_lexes (s : List α) : S.Lexes none (S.scan s) := (S.scan_eq_iff.mp rfl).1

@[simp] theorem source_scan (s : List α) : source (S.scan s) = s := (S.scan_eq_iff.mp rfl).2

theorem run_fuel {n : ℕ} {p : Option α} {s : List α} (h : s.length ≤ n) :
    S.run n p s = S.run s.length p s := (S.run_eq_iff h).mpr (S.run_lexes _ p s (Nat.le_refl _))

theorem run_cons {p : Option α} {a : α} {s : List α} {k : κ} {n : ℕ}
    (h : S.step p (a :: s) = (k, n)) :
    S.run (a :: s).length p (a :: s) =
      ⟨k, (a :: s).take n⟩ ::
        S.run ((a :: s).drop n).length (after p ((a :: s).take n)) ((a :: s).drop n) := by
  have hpos := S.pos p a s
  rw [h] at hpos
  have hlen : ((a :: s).drop n).length ≤ s.length := by
    simp only [List.length_drop, List.length_cons]
    omega
  rw [List.length_cons, run, h]
  exact congrArg _ (S.run_fuel hlen)

theorem Lexes.append {S : Scanner α κ} {p : Option α} {ls ms : List (Lexeme α κ)}
    (h : S.Lexes p (ls ++ ms)) : S.Lexes (after p (source ls)) ms := by
  induction ls generalizing p with
  | nil => simpa using h
  | cons l ls ih =>
    cases h with
    | cons _ _ hrest =>
      rw [source_cons, after_append]
      exact ih hrest

theorem Lexes.text_ne_nil {S : Scanner α κ} {p : Option α} {ls : List (Lexeme α κ)}
    (h : S.Lexes p ls) : ∀ l ∈ ls, l.text ≠ [] := by
  induction h with
  | nil => simp
  | cons hne _ _ ih => simpa using ⟨hne, ih⟩

theorem Lexes.exists_step {S : Scanner α κ} {p : Option α} {ls : List (Lexeme α κ)}
    (h : S.Lexes p ls) {l : Lexeme α κ} (hl : l ∈ ls) :
    ∃ q s, S.step q (l.text ++ s) = (l.kind, l.text.length) := by
  induction h with
  | nil => cases hl
  | @cons p l' ls _ hstep _ ih =>
    rcases List.mem_cons.mp hl with rfl | hl
    · exact ⟨p, source ls, hstep⟩
    · exact ih hl

end Scanner

def positions (offset : ℕ) : List (Lexeme α κ) → List (ℕ × Lexeme α κ)
  | [] => []
  | l :: ls => (offset, l) :: positions (offset + l.text.length) ls

end PdoDuckdb.Library.Scanning
