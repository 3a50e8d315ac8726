import Mathlib.Data.List.Nodup
import Mathlib.Logic.Function.Basic

namespace PdoDuckdb.Library

/-- The pointers of nodes that are linked both ways. -/
structure Links (ι : Type*) where
  prev : ι → Option ι
  next : ι → Option ι

namespace Links

variable {ι : Type*} {x y : Links ι} {before first rest head : Option ι} {a c : ι} {l l' : List ι}

/-- The nodes from `first` to `rest`, the first of which comes after `before`. -/
def Segment (x : Links ι) : Option ι → List ι → Option ι → Option ι → Prop
  | _, [], rest, first => first = rest
  | before, a :: l, rest, first => first = some a ∧ x.prev a = before ∧ x.Segment (some a) l rest (x.next a)

def Lists (x : Links ι) (head : Option ι) (l : List ι) : Prop := x.Segment none l none head

theorem Segment.congr (h : x.Segment before l rest first)
    (hsame : ∀ c ∈ l, y.prev c = x.prev c ∧ y.next c = x.next c) : y.Segment before l rest first := by
  induction l generalizing before first with
  | nil => exact h
  | cons a l ih =>
    obtain ⟨hfirst, hprev, hl⟩ := h
    obtain ⟨hp, hn⟩ := hsame a List.mem_cons_self
    refine ⟨hfirst, hp.trans hprev, ?_⟩
    rw [hn]
    exact ih hl fun c hc ↦ hsame c (List.mem_cons_of_mem a hc)

theorem segment_append : x.Segment before (l ++ l') rest first ↔
    ∃ mid, x.Segment before l mid first ∧ x.Segment (l.getLast?.or before) l' rest mid := by
  induction l generalizing before first with
  | nil => exact ⟨fun h ↦ ⟨first, rfl, h⟩, fun ⟨_, hmid, h⟩ ↦ hmid ▸ h⟩
  | cons a l ih =>
    have hlast : (a :: l).getLast?.or before = l.getLast?.or (some a) := by
      rw [List.getLast?_cons]
      cases l.getLast? <;> rfl
    rw [hlast]
    constructor
    · rintro ⟨hfirst, hprev, h⟩
      obtain ⟨mid, hl, hl'⟩ := ih.mp h
      exact ⟨mid, ⟨hfirst, hprev, hl⟩, hl'⟩
    · rintro ⟨mid, ⟨hfirst, hprev, hl⟩, hl'⟩
      exact ⟨hfirst, hprev, ih.mpr ⟨mid, hl, hl'⟩⟩

/-- A node splits its list. -/
theorem Lists.split (h : x.Lists head (l ++ a :: l')) :
    x.Segment none l (some a) head ∧ x.prev a = l.getLast? ∧ x.Segment (some a) l' none (x.next a) := by
  obtain ⟨mid, hl, rfl, hprev, hl'⟩ := segment_append.mp h
  rw [Option.or_none] at hprev
  exact ⟨hl, hprev, hl'⟩

theorem Segment.first_mem (h : x.Segment before l none (some a)) : a ∈ l := by
  cases l with
  | nil => cases h
  | cons b l =>
    obtain rfl := Option.some.inj h.1
    exact List.mem_cons_self

/-- The neighbours of a node are in its list. -/
theorem Lists.mem_of_neighbour (h : x.Lists head l) (ha : a ∈ l) (hc : x.prev a = some c ∨ x.next a = some c) :
    c ∈ l := by
  obtain ⟨l₁, l₂, rfl⟩ := List.append_of_mem ha
  obtain ⟨_, hprev, hnext⟩ := h.split
  rcases hc with hc | hc
  · rw [hprev] at hc
    exact List.mem_append_left _ (List.mem_of_getLast? hc)
  · rw [hc] at hnext
    exact List.mem_append_right _ (List.mem_cons_of_mem a hnext.first_mem)

variable [DecidableEq ι]

def write (f : ι → Option ι) (p v : Option ι) : ι → Option ι := fun c ↦ if p = some c then v else f c

@[simp] theorem write_self (f : ι → Option ι) (v : Option ι) : write f (some c) v c = v := if_pos rfl

theorem write_other {f : ι → Option ι} {p v : Option ι} (h : p ≠ some c) : write f p v c = f c := if_neg h

def link (x : Links ι) (head : Option ι) (a : ι) : Links ι where
  prev := write (write x.prev (some a) none) head (some a)
  next := write x.next (some a) head

def unlink (x : Links ι) (a : ι) : Links ι where
  prev := write (write x.prev (x.next a) (x.prev a)) (some a) none
  next := write (write x.next (x.prev a) (x.next a)) (some a) none

def headWithout (x : Links ι) (head : Option ι) (a : ι) : Option ι :=
  if (x.prev a).isSome then head else x.next a

theorem link_other (ha : a ≠ c) (hhead : head ≠ some c) :
    (x.link head a).prev c = x.prev c ∧ (x.link head a).next c = x.next c :=
  have hnode : some a ≠ some c := fun h ↦ ha (Option.some.inj h)
  ⟨(write_other hhead).trans (write_other hnode), write_other hnode⟩

theorem unlink_prev_other (ha : a ≠ c) (hnext : x.next a ≠ some c) : (x.unlink a).prev c = x.prev c :=
  (write_other fun h ↦ ha (Option.some.inj h)).trans (write_other hnext)

theorem unlink_next_other (ha : a ≠ c) (hprev : x.prev a ≠ some c) : (x.unlink a).next c = x.next c :=
  (write_other fun h ↦ ha (Option.some.inj h)).trans (write_other hprev)

theorem Lists.link (h : x.Lists head l) (hnodup : l.Nodup) (ha : a ∉ l) :
    (x.link head a).Lists (some a) (a :: l) := by
  have hnext : (x.link head a).next a = head := write_self ..
  cases l with
  | nil =>
    obtain rfl : head = none := h
    exact ⟨rfl, write_self .., hnext⟩
  | cons b l =>
    obtain ⟨rfl, -, hl⟩ := h
    rw [List.mem_cons, not_or] at ha
    have hab : some a ≠ some b := fun h ↦ ha.1 (Option.some.inj h)
    refine ⟨rfl, (write_other fun h ↦ hab h.symm).trans (write_self ..), ?_⟩
    rw [hnext]
    refine ⟨rfl, write_self .., ?_⟩
    rw [show (x.link (some b) a).next b = x.next b from write_other hab]
    refine hl.congr fun c hc ↦ link_other (fun hac ↦ ha.2 (hac ▸ hc)) fun hbc ↦ ?_
    exact (List.nodup_cons.mp hnodup).1 (Option.some.inj hbc ▸ hc)

/-- What comes before a node, when the node is unlinked. -/
theorem Segment.unlink_before (h : x.Segment before l (some a) head) (hnodup : l.Nodup) (ha : a ∉ l)
    (hprev : x.prev a = l.getLast?) (hnext : ∀ n, x.next a = some n → n ∉ l) :
    (x.unlink a).Segment before l (x.next a) (x.headWithout head a) := by
  unfold headWithout
  rcases List.eq_nil_or_concat' l with rfl | ⟨l₀, p, rfl⟩
  · rw [hprev]
    rfl
  · rw [List.getLast?_append_of_ne_nil _ (List.cons_ne_nil p []), List.getLast?_singleton] at hprev
    rw [hprev, Option.isSome_some, if_pos rfl]
    rw [List.mem_append, not_or] at ha
    have hap : a ≠ p := fun hap ↦ ha.2 (List.mem_singleton.mpr hap)
    obtain ⟨mid, hl₀, rfl, hpp, -⟩ := segment_append.mp h
    obtain ⟨-, -, hdisjoint⟩ := List.nodup_append.mp hnodup
    refine segment_append.mpr ⟨some p, ?_, rfl, ?_, ?_⟩
    · refine hl₀.congr fun c hc ↦ ?_
      have hac : a ≠ c := fun hac ↦ ha.1 (hac ▸ hc)
      refine ⟨unlink_prev_other hac fun hnc ↦ hnext c hnc (List.mem_append_left _ hc), unlink_next_other hac fun hpc ↦ ?_⟩
      rw [hprev] at hpc
      exact hdisjoint c hc p (List.mem_singleton_self p) (Option.some.inj hpc).symm
    · exact (unlink_prev_other hap fun hnp ↦ hnext p hnp (List.mem_append_right _ (List.mem_singleton_self p))).trans hpp
    · refine (write_other fun h ↦ hap (Option.some.inj h)).trans ?_
      rw [hprev]
      exact write_self ..

/-- What comes after a node, when the node is unlinked. -/
theorem Segment.unlink_after (h : x.Segment (some a) l none (x.next a)) (hnodup : l.Nodup) (ha : a ∉ l)
    (hprev : ∀ p, x.prev a = some p → p ∉ l) : (x.unlink a).Segment (x.prev a) l none (x.next a) := by
  cases l with
  | nil => exact h
  | cons b l =>
    obtain ⟨hnext, -, hl⟩ := h
    rw [List.mem_cons, not_or] at ha
    have hfar {c : ι} (hc : c ∈ b :: l) : x.prev a ≠ some c := fun hp ↦ hprev c hp hc
    refine ⟨hnext, ?_, ?_⟩
    · refine (write_other fun h ↦ ha.1 (Option.some.inj h)).trans ?_
      rw [hnext]
      exact write_self ..
    · rw [unlink_next_other ha.1 (hfar List.mem_cons_self)]
      refine hl.congr fun c hc ↦ ?_
      have hac : a ≠ c := fun hac ↦ ha.2 (hac ▸ hc)
      refine ⟨unlink_prev_other hac fun hnc ↦ ?_, unlink_next_other hac (hfar (List.mem_cons_of_mem b hc))⟩
      rw [hnext] at hnc
      exact (List.nodup_cons.mp hnodup).1 (Option.some.inj hnc ▸ hc)

theorem Lists.unlink (h : x.Lists head l) (hnodup : l.Nodup) (ha : a ∈ l) :
    (x.unlink a).Lists (x.headWithout head a) (l.erase a) := by
  obtain ⟨l₁, l₂, rfl⟩ := List.append_of_mem ha
  obtain ⟨hl₁, hprev, hl₂⟩ := h.split
  obtain ⟨hnodup₁, hnodup₂, hdisjoint⟩ := List.nodup_append.mp hnodup
  obtain ⟨ha₂, hnodup₂⟩ := List.nodup_cons.mp hnodup₂
  have ha₁ : a ∉ l₁ := fun hmem ↦ hdisjoint a hmem a List.mem_cons_self rfl
  have hapart : ∀ c ∈ l₁, c ∉ l₂ := fun c h₁ h₂ ↦ hdisjoint c h₁ c (List.mem_cons_of_mem a h₂) rfl
  rw [List.erase_append_right _ ha₁, List.erase_cons_head]
  refine segment_append.mpr ⟨x.next a, ?_, ?_⟩
  · refine hl₁.unlink_before hnodup₁ ha₁ hprev fun n hn h₁ ↦ hapart n h₁ ?_
    rw [hn] at hl₂
    exact hl₂.first_mem
  · rw [Option.or_none, ← hprev]
    refine hl₂.unlink_after hnodup₂ ha₂ fun p hp ↦ ?_
    rw [hprev] at hp
    exact hapart p (List.mem_of_getLast? hp)

end Links

end PdoDuckdb.Library
