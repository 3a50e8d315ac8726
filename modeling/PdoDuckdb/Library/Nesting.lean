import Mathlib.Data.List.Basic

namespace PdoDuckdb.Library.Nesting

inductive Mark
  | left
  | right
  | separator
  | plain
deriving DecidableEq, Repr

variable {α : Type*} (mark : α → Mark)

/-- The depth after one symbol. A closing bracket too many leaves it at zero. -/
def nest (d : ℕ) (a : α) : ℕ :=
  match mark a with
  | .left => d + 1
  | .right => d - 1
  | _ => d

def depth (d : ℕ) (s : List α) : ℕ := s.foldl (nest mark) d

def skip : ℕ → List α → List α
  | _, [] => []
  | d, a :: s => if mark a = .separator ∧ d = 0 then s else skip (nest mark d a) s

def upTo : ℕ → List α → List α
  | _, [] => []
  | d, a :: s => if mark a = .separator ∧ d = 0 then [] else a :: upTo (nest mark d a) s

def split : ℕ → List α → List (List α)
  | _, [] => [[]]
  | d, a :: s =>
    if mark a = .separator ∧ d = 0 then [] :: split 0 s
    else (split (nest mark d a) s).modifyHead (a :: ·)

/-- Where the nonempty pieces of `split` start: the rest of the text from each
of their first symbols on. -/
def starts : Bool → ℕ → List α → List (List α)
  | _, _, [] => []
  | fresh, d, a :: s =>
    if mark a = .separator ∧ d = 0 then starts true 0 s
    else (if fresh then [a :: s] else []) ++ starts false (nest mark d a) s

@[simp] theorem depth_nil (d : ℕ) : depth mark d [] = d := rfl

@[simp] theorem depth_cons (d : ℕ) (a : α) (s : List α) :
    depth mark d (a :: s) = depth mark (nest mark d a) s := rfl

variable {mark}

theorem nest_mono {d e : ℕ} (h : d ≤ e) (a : α) : nest mark d a ≤ nest mark e a := by
  unfold nest
  split <;> omega

theorem nest_separator {a : α} (h : mark a = .separator) (d : ℕ) : nest mark d a = d := by
  simp [nest, h]

theorem skip_length_le (d : ℕ) (s : List α) : (skip mark d s).length ≤ s.length := by
  induction s generalizing d with
  | nil => simp [skip]
  | cons a s ih =>
    simp only [skip, List.length_cons]
    split_ifs with h
    · omega
    · have := ih (nest mark d a)
      omega

theorem starts_false (d : ℕ) (s : List α) :
    starts mark false d s = starts mark true 0 (skip mark d s) := by
  induction s generalizing d with
  | nil => rfl
  | cons a s ih =>
    by_cases h : mark a = .separator ∧ d = 0
    · simp only [starts, skip, if_pos h]
    · simpa only [starts, skip, if_neg h, Bool.false_eq_true, if_false, List.nil_append]
        using ih (nest mark d a)

theorem starts_cons {a : α} (h : mark a ≠ .separator) (s : List α) :
    starts mark true 0 (a :: s) = (a :: s) :: starts mark true 0 (skip mark (nest mark 0 a) s) := by
  simp only [starts, h, false_and, if_false, if_true, starts_false]
  rfl

theorem starts_separator {a : α} (h : mark a = .separator) (s : List α) :
    starts mark true 0 (a :: s) = starts mark true 0 s := by simp [starts, h]

theorem split_eq_cons (d : ℕ) (s : List α) :
    ∃ pieces, split mark d s = upTo mark d s :: pieces := by
  induction s generalizing d with
  | nil => exact ⟨[], rfl⟩
  | cons a s ih =>
    by_cases h : mark a = .separator ∧ d = 0
    · exact ⟨split mark 0 s, by simp only [split, upTo, if_pos h]⟩
    · obtain ⟨pieces, hp⟩ := ih (nest mark d a)
      exact ⟨pieces, by simp only [split, upTo, if_neg h, hp, List.modifyHead_cons]⟩

theorem map_upTo_starts_false (d : ℕ) (s : List α) :
    (starts mark false d s).map (upTo mark 0) = (split mark d s).tail.filter (· ≠ []) ∧
    (d = 0 → (starts mark true d s).map (upTo mark 0) = (split mark d s).filter (· ≠ [])) := by
  induction s generalizing d with
  | nil => simp [starts, split]
  | cons a s ih =>
    by_cases h : mark a = .separator ∧ d = 0
    · have hrest := (ih 0).2 rfl
      simp only [starts, split, if_pos h, List.tail_cons, hrest, true_and]
      intro
      simp
    · obtain ⟨pieces, hp⟩ := @split_eq_cons _ mark (nest mark d a) s
      have hrest := (ih (nest mark d a)).1
      rw [hp, List.tail_cons] at hrest
      simp only [starts, split, if_neg h, hp, List.modifyHead_cons, List.tail_cons]
      refine ⟨by simpa using hrest, ?_⟩
      rintro rfl
      simpa [hrest, upTo] using h

/-- The starts come with their pieces, in order. -/
theorem map_upTo_starts (s : List α) :
    (starts mark true 0 s).map (upTo mark 0) = (split mark 0 s).filter (· ≠ []) :=
  (map_upTo_starts_false 0 s).2 rfl

theorem skip_append_of_no_separator {s : List α} (h : ∀ a ∈ s, mark a ≠ .separator)
    (d : ℕ) (t : List α) : skip mark d (s ++ t) = skip mark (depth mark d s) t := by
  induction s generalizing d with
  | nil => rfl
  | cons a s ih =>
    simp only [List.mem_cons, forall_eq_or_imp] at h
    simp only [List.cons_append, skip, h.1, false_and, if_false, depth_cons, ih h.2]

theorem upTo_append_of_no_separator {s : List α} (h : ∀ a ∈ s, mark a ≠ .separator)
    (d : ℕ) (t : List α) : upTo mark d (s ++ t) = s ++ upTo mark (depth mark d s) t := by
  induction s generalizing d with
  | nil => rfl
  | cons a s ih =>
    simp only [List.mem_cons, forall_eq_or_imp] at h
    simp only [List.cons_append, upTo, h.1, false_and, if_false, depth_cons, ih h.2]

/-- Text of separators only has no pieces. -/
theorem starts_of_separators {s : List α} (h : ∀ a ∈ s, mark a = .separator) :
    starts mark true 0 s = [] := by
  induction s with
  | nil => rfl
  | cons a s ih =>
    simp only [List.mem_cons, forall_eq_or_imp] at h
    rw [starts_separator h.1, ih h.2]

theorem mem_of_mem_skip {d : ℕ} {s : List α} {a : α} (h : a ∈ skip mark d s) : a ∈ s := by
  induction s generalizing d with
  | nil => exact h
  | cons b s ih =>
    simp only [skip] at h
    split_ifs at h
    · exact List.mem_cons_of_mem b h
    · exact List.mem_cons_of_mem b (ih h)

/-- Skipping from inside a bracket leaves less than the first piece found where
a separator is taken for an outer one. -/
theorem skip_inside_lt {d : ℕ} (hd : 0 < d) {s : List α} (h : ∃ a ∈ s, mark a ≠ .separator) :
    ∃ a t, mark a ≠ .separator ∧ (skip mark d s).length < (a :: t).length ∧
      ∃ seps, s = seps ++ a :: t ∧ ∀ b ∈ seps, mark b = .separator := by
  induction s with
  | nil => simp at h
  | cons b s ih =>
    by_cases hb : mark b = .separator
    · have hrest : ∃ a ∈ s, mark a ≠ .separator := by
        obtain ⟨a, ha, hsep⟩ := h
        rcases List.mem_cons.mp ha with rfl | ha
        · exact absurd hb hsep
        · exact ⟨a, ha, hsep⟩
      obtain ⟨a, t, ha, hlt, seps, rfl, hseps⟩ := ih hrest
      refine ⟨a, t, ha, ?_, b :: seps, rfl, by simpa using ⟨hb, hseps⟩⟩
      have hd' : ¬(mark b = .separator ∧ d = 0) := by omega
      simpa only [skip, if_neg hd', nest_separator hb] using hlt
    · refine ⟨b, s, hb, ?_, [], rfl, by simp⟩
      have hle := @skip_length_le _ mark (nest mark d b) s
      simp only [skip, hb, false_and, if_false, List.length_cons]
      omega

theorem starts_append_separators {seps : List α} (h : ∀ b ∈ seps, mark b = .separator)
    (s : List α) : starts mark true 0 (seps ++ s) = starts mark true 0 s := by
  induction seps with
  | nil => rfl
  | cons b seps ih =>
    simp only [List.mem_cons, forall_eq_or_imp] at h
    rw [List.cons_append, starts_separator h.1, ih h.2]

theorem length_le_of_mem_starts {fresh : Bool} {d : ℕ} {s u : List α}
    (h : u ∈ starts mark fresh d s) : u.length ≤ s.length := by
  induction s generalizing fresh d with
  | nil => cases h
  | cons a s ih =>
    have htail {fresh : Bool} {d : ℕ} (h : u ∈ starts mark fresh d s) :
        u.length ≤ (a :: s).length := Nat.le_succ_of_le (ih h)
    simp only [starts] at h
    split_ifs at h
    · exact htail h
    · rcases List.mem_append.mp h with h | h
      · exact Nat.le_of_eq (congrArg List.length (List.mem_singleton.mp h))
      · exact htail h
    · exact htail (by simpa using h)

section Cut

variable {d e : ℕ} (hle : e ≤ d)
include hle

/-- Skipping with too small a depth ends no piece early, provided only separators
follow every separator it could take wrongly. -/
theorem starts_skip_eq {s : List α}
    (h : ∀ before a after, s = before ++ a :: after → mark a = .separator →
      depth mark e before = 0 → 0 < depth mark d before → ∀ b ∈ after, mark b = .separator) :
    starts mark true 0 (skip mark e s) = starts mark true 0 (skip mark d s) := by
  induction s generalizing d e with
  | nil => rfl
  | cons a s ih =>
    by_cases ha : mark a = .separator ∧ e = 0
    · obtain ⟨ha, rfl⟩ := ha
      rcases Nat.eq_zero_or_pos d with rfl | hd
      · rfl
      · have hs := h [] a s rfl ha rfl hd
        have hskip : ∀ b ∈ skip mark d (a :: s), mark b = .separator := by
          intro b hb
          rcases List.mem_cons.mp (mem_of_mem_skip hb) with rfl | hb
          · exact ha
          · exact hs b hb
        rw [starts_of_separators hskip]
        simp only [skip, ha, and_self, if_true, starts_of_separators hs]
    · have hd : ¬(mark a = .separator ∧ d = 0) := fun hd ↦ ha ⟨hd.1, by omega⟩
      simp only [skip, if_neg ha, if_neg hd]
      refine ih (nest_mono hle a) fun before b after hs hb he hd ↦ ?_
      exact h (a :: before) b after (by rw [hs, List.cons_append]) hb he hd

/-- Conversely, where more than separators follow one taken wrongly, a piece
is found that is none. -/
theorem starts_skip_longer {s before after : List α} {a : α} (hs : s = before ++ a :: after)
    (ha : mark a = .separator) (he : depth mark e before = 0) (hd : 0 < depth mark d before)
    (hafter : ∃ b ∈ after, mark b ≠ .separator) :
    ∃ u us, starts mark true 0 (skip mark e s) = u :: us ∧
      (skip mark d s).length < u.length := by
  induction before generalizing d e s with
  | nil =>
    subst hs
    simp only [depth_nil] at he hd
    subst he
    obtain ⟨b, t, hb, hlt, seps, rfl, hseps⟩ := skip_inside_lt hd hafter
    have hd' : ¬(mark a = .separator ∧ d = 0) := by omega
    refine ⟨b :: t, starts mark true 0 (skip mark (nest mark 0 b) t), ?_, ?_⟩
    · simp only [List.nil_append, skip, ha, and_self, if_true]
      rw [starts_append_separators hseps, starts_cons hb]
    · simpa only [List.nil_append, skip, if_neg hd', nest_separator ha] using hlt
  | cons c before ih =>
    subst hs
    by_cases hc : mark c = .separator ∧ e = 0
    · obtain ⟨hc, rfl⟩ := hc
      have hd0 : 0 < d := by
        rcases Nat.eq_zero_or_pos d with rfl | hd0
        · omega
        · exact hd0
      have hrest : ∃ b ∈ before ++ a :: after, mark b ≠ .separator := by
        obtain ⟨b, hb, hsep⟩ := hafter
        exact ⟨b, by simp [hb], hsep⟩
      obtain ⟨b, t, hb, hlt, seps, heq, hseps⟩ := skip_inside_lt hd0 hrest
      have hd' : ¬(mark c = .separator ∧ d = 0) := by omega
      refine ⟨b :: t, starts mark true 0 (skip mark (nest mark 0 b) t), ?_, ?_⟩
      · simp only [List.cons_append, skip, hc, and_self, if_true]
        rw [heq, starts_append_separators hseps, starts_cons hb]
      · simpa only [List.cons_append, skip, if_neg hd', nest_separator hc] using hlt
    · have hd' : ¬(mark c = .separator ∧ d = 0) := fun h ↦ hc ⟨h.1, by omega⟩
      simp only [List.cons_append, skip, if_neg hc, if_neg hd']
      exact ih (nest_mono hle c) rfl he hd

end Cut

end PdoDuckdb.Library.Nesting
