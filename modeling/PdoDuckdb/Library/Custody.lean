import Mathlib.Data.List.Nodup
import Mathlib.Data.List.Perm.Basic
import Mathlib.Logic.Function.Basic

namespace PdoDuckdb.Library

/-- Values that are created and have to be given back, each under a number of
its own. Giving back or using one that is not there is a fault. -/
structure Custody (α : Type*) where
  issued : ℕ
  live : List (ℕ × α)
  faults : ℕ

namespace Custody

variable {α : Type*} {c : Custody α} {h : ℕ × α} {hs held held' : List (ℕ × α)}

def empty : Custody α := ⟨0, [], 0⟩

def holds (c : Custody α) (h : ℕ × α) : Bool := c.live.any fun l ↦ l.1 == h.1

def create (a : α) (c : Custody α) : (ℕ × α) × Custody α :=
  ((c.issued, a), { c with issued := c.issued + 1, live := (c.issued, a) :: c.live })

def release (c : Custody α) (h : ℕ × α) : Custody α :=
  if c.holds h then { c with live := c.live.eraseP fun l ↦ l.1 == h.1 }
  else { c with faults := c.faults + 1 }

def releaseAll (c : Custody α) (hs : List (ℕ × α)) : Custody α := hs.foldl release c

def use (c : Custody α) (hs : List (ℕ × α)) : Custody α :=
  { c with faults := c.faults + hs.countP fun h ↦ !c.holds h }

/-- What is there is what somebody holds, and there was no fault. -/
structure Owes (c : Custody α) (held : List (ℕ × α)) : Prop where
  live : c.live.Perm held
  distinct : (held.map Prod.fst).Nodup
  issued : ∀ h ∈ held, h.1 < c.issued
  faults : c.faults = 0

theorem owes_empty : (empty : Custody α).Owes [] where
  live := .refl []
  distinct := List.nodup_nil
  issued := by simp
  faults := rfl

namespace Owes

theorem perm (hc : c.Owes held) (hp : held.Perm held') : c.Owes held' where
  live := hc.live.trans hp
  distinct := (hp.map Prod.fst).nodup_iff.mp hc.distinct
  issued := fun h hh ↦ hc.issued h (hp.mem_iff.mpr hh)
  faults := hc.faults

theorem create (hc : c.Owes held) (a : α) :
    (c.create a).2.Owes ((c.create a).1 :: held) where
  live := hc.live.cons _
  distinct := by
    refine List.nodup_cons.mpr ⟨fun hmem ↦ ?_, hc.distinct⟩
    obtain ⟨h, hh, heq⟩ := List.mem_map.mp hmem
    exact absurd heq (Nat.ne_of_lt (hc.issued h hh))
  issued := by
    intro h hh
    rcases List.mem_cons.mp hh with rfl | hh
    · exact Nat.lt_succ_self _
    · exact Nat.lt_succ_of_lt (hc.issued h hh)
  faults := hc.faults

theorem holds (hc : c.Owes held) (hh : h ∈ held) : c.holds h := by
  refine List.any_eq_true.mpr ⟨h, hc.live.mem_iff.mpr hh, ?_⟩
  rw [beq_iff_eq]

theorem release (hc : c.Owes (h :: held)) : (c.release h).Owes held := by
  have hheld := hc.holds List.mem_cons_self
  have hnodup := List.nodup_cons.mp hc.distinct
  rw [Custody.release, if_pos hheld]
  refine ⟨?_, hnodup.2, fun h' hh' ↦ hc.issued h' (List.mem_cons_of_mem h hh'), hc.faults⟩
  -- no other value is there under the number
  have hpair : (h :: held).Pairwise fun l l' ↦ (l.1 == h.1) = true → ¬ (l'.1 == h.1) = true := by
    have hne := List.pairwise_map.mp hc.distinct
    refine hne.imp fun {l l'} hne hl hl' ↦ hne ?_
    rw [beq_iff_eq] at hl hl'
    rw [hl, hl']
  have herase : (c.live.eraseP fun l ↦ l.1 == h.1).Perm
      ((h :: held).eraseP fun l ↦ l.1 == h.1) := by
    refine List.Perm.eraseP (fun l ↦ l.1 == h.1) ?_ hc.live
    refine (hc.live.symm.pairwise_iff ?_).mp (hpair.imp fun {l l'} hll hl hl' ↦ hll hl hl')
    intro l l' hll hl' hl
    exact hll hl hl'
  rwa [List.eraseP_cons_of_pos (by simp)] at herase

theorem releaseAll (hc : c.Owes (hs ++ held)) : (c.releaseAll hs).Owes held := by
  induction hs generalizing c with
  | nil => exact hc
  | cons h hs ih => exact ih hc.release

theorem use (hc : c.Owes held) (hsub : ∀ h ∈ hs, h ∈ held) : c.use hs = c := by
  have hcount : (hs.countP fun h ↦ !c.holds h) = 0 := by
    rw [List.countP_eq_zero]
    intro h hh
    rw [hc.holds (hsub h hh)]
    decide
  rw [Custody.use, hcount, Nat.add_zero]

end Owes

section Places

variable {ι β : Type*} [DecidableEq ι] {f : ι → List β} {l : List ι} {i : ι}

/-- What is in places, one of them changed, is what is in that one and in the others. -/
theorem flatMap_update_perm (hl : l.Nodup) (hi : i ∈ l) (x : List β) :
    (l.flatMap (Function.update f i x)).Perm (x ++ l.flatMap (Function.update f i [])) := by
  induction l with
  | nil => cases hi
  | cons j l ih =>
    obtain ⟨hj, hl⟩ := List.nodup_cons.mp hl
    rw [List.flatMap_cons, List.flatMap_cons]
    by_cases hij : i = j
    · subst hij
      have hrest (y : List β) : l.flatMap (Function.update f i y) = l.flatMap f :=
        List.flatMap_congr fun k hk ↦ Function.update_of_ne (ne_of_mem_of_not_mem hk hj) y f
      rw [Function.update_self, Function.update_self, hrest, hrest, List.nil_append]
    · rw [Function.update_of_ne (Ne.symm hij), Function.update_of_ne (Ne.symm hij)]
      have hmem := (List.mem_cons.mp hi).resolve_left hij
      refine ((ih hl hmem).append_left (f j)).trans ?_
      rw [← List.append_assoc, ← List.append_assoc]
      exact List.perm_append_comm.append_right _

/-- What is in places, apart from one of them. -/
theorem flatMap_perm (hl : l.Nodup) (hi : i ∈ l) :
    (l.flatMap f).Perm (f i ++ l.flatMap (Function.update f i [])) := by
  have h : (l.flatMap (Function.update f i (f i))).Perm _ := flatMap_update_perm hl hi (f i)
  rwa [Function.update_eq_self] at h

/-- A place that was empty is filled. -/
theorem flatMap_fill_perm (hl : l.Nodup) (hi : i ∈ l) (hempty : f i = []) (x : List β) :
    (l.flatMap (Function.update f i x)).Perm (x ++ l.flatMap f) := by
  have h : (l.flatMap (Function.update f i x)).Perm _ := flatMap_update_perm hl hi x
  rwa [← hempty, Function.update_eq_self] at h

/-- Some of the places are emptied. -/
theorem flatMap_clear_perm {cleared : List ι} (hl : l.Nodup) (hcleared : cleared.Nodup)
    (hsub : ∀ i ∈ cleared, i ∈ l) :
    (l.flatMap f).Perm (cleared.flatMap f ++ l.flatMap fun i ↦ if i ∈ cleared then [] else f i) := by
  induction cleared generalizing f with
  | nil => simp
  | cons i cleared ih =>
    obtain ⟨hi, hcleared⟩ := List.nodup_cons.mp hcleared
    have hrest : cleared.flatMap (Function.update f i []) = cleared.flatMap f :=
      List.flatMap_congr fun j hj ↦ Function.update_of_ne (ne_of_mem_of_not_mem hj hi) [] f
    have hboth : (fun j ↦ if j ∈ cleared then [] else Function.update f i [] j) =
        fun j ↦ if j ∈ i :: cleared then [] else f j := by
      funext j
      by_cases hj : j = i
      · subst hj
        simp
      · simp [hj]
    have h := ih (f := Function.update f i []) hcleared fun j hj ↦ hsub j (List.mem_cons_of_mem i hj)
    rw [hrest, hboth] at h
    rw [List.flatMap_cons, List.append_assoc]
    exact (flatMap_perm hl (hsub i List.mem_cons_self)).trans (h.append_left (f i))

end Places

end Custody

end PdoDuckdb.Library
