import Mathlib.Data.List.Basic
import Mathlib.Data.List.Nodup

namespace PdoDuckdb.Library.Numbering

variable {κ : Type*} [BEq κ] [LawfulBEq κ] {t : List (κ × ℕ)} {k k' : κ} {i : ℕ}

/-- A table whose keys are numbered in the order they were added. -/
structure Numbered (t : List (κ × ℕ)) : Prop where
  keys : (t.map Prod.fst).Nodup
  numbers : t.map Prod.snd = List.range t.length

omit [BEq κ] [LawfulBEq κ] in
theorem Numbered.nil : Numbered ([] : List (κ × ℕ)) := ⟨List.nodup_nil, rfl⟩

theorem mem_of_lookup (h : t.lookup k = some i) : (k, i) ∈ t := by
  obtain ⟨s, u, rfl, -⟩ := List.lookup_eq_some_iff.mp h
  simp

theorem lookup_eq_none : t.lookup k = none ↔ k ∉ t.map Prod.fst := by
  rw [List.lookup_eq_none_iff, List.mem_map]
  constructor
  · rintro h ⟨p, hp, rfl⟩
    simpa using h p hp
  · intro h p hp
    simpa using fun heq ↦ h ⟨p, hp, heq.symm⟩

namespace Numbered

theorem snoc (h : Numbered t) (hk : t.lookup k = none) : Numbered (t ++ [(k, t.length)]) where
  keys := by
    rw [List.map_append, List.map_singleton, List.nodup_append]
    refine ⟨h.keys, List.nodup_singleton k, ?_⟩
    rintro a ha b hb rfl
    rw [List.mem_singleton.mp hb] at ha
    exact lookup_eq_none.mp hk ha
  numbers := by simp [h.numbers, List.range_succ]

theorem lookup_eq_some (h : Numbered t) : t.lookup k = some i ↔ (k, i) ∈ t := by
  refine ⟨mem_of_lookup, fun hmem ↦ ?_⟩
  cases hl : t.lookup k with
  | none => exact absurd (List.mem_map_of_mem hmem) (lookup_eq_none.mp hl)
  | some j =>
    have hj := List.inj_on_of_nodup_map h.keys (mem_of_lookup hl) hmem rfl
    exact congrArg some (Prod.mk.inj hj).2

theorem lookup_lt (h : Numbered t) (hl : t.lookup k = some i) : i < t.length := by
  have hi : i ∈ t.map Prod.snd := List.mem_map_of_mem (mem_of_lookup hl)
  rwa [h.numbers, List.mem_range] at hi

theorem lookup_inj (h : Numbered t) (hk : t.lookup k = some i) (hk' : t.lookup k' = some i) :
    k = k' := by
  have hnodup : (t.map Prod.snd).Nodup := h.numbers ▸ List.nodup_range
  have heq := List.inj_on_of_nodup_map hnodup (mem_of_lookup hk) (mem_of_lookup hk') rfl
  exact (Prod.mk.inj heq).1

theorem getElem?_eq_some (h : Numbered t) : t[i]? = some (k, i) ↔ t.lookup k = some i := by
  rw [h.lookup_eq_some]
  refine ⟨List.mem_of_getElem?, fun hmem ↦ ?_⟩
  obtain ⟨j, hj⟩ := List.mem_iff_getElem?.mp hmem
  have hsnd : (t.map Prod.snd)[j]? = some i := by rw [List.getElem?_map, hj]; rfl
  rw [h.numbers] at hsnd
  obtain ⟨hlt, heq⟩ := List.getElem?_eq_some_iff.mp hsnd
  rw [List.getElem_range] at heq
  exact heq ▸ hj

end Numbered

omit [LawfulBEq κ] in
theorem lookup_append_of_some {u : List (κ × ℕ)} (h : t.lookup k = some i) :
    (t ++ u).lookup k = some i := by
  rw [List.lookup_append, h, Option.some_or]

theorem numbered_range (n : ℕ) : Numbered ((List.range n).map fun i ↦ (i, i)) where
  keys := by simpa [Function.comp_def] using List.nodup_range
  numbers := by simp [Function.comp_def]

end PdoDuckdb.Library.Numbering
