import PdoDuckdb.Bridge.LogicalTypes
import PdoDuckdb.Library.Loops

namespace PdoDuckdb.Bridge

open Library.Loops

/-- A frame of the stack of `pdd_bridge_type_annotations`. -/
structure Frame where
  type : LogicalType
  nextChild : ℕ
  visited : Bool

/-- `pdd_bridge_type_annotation`. -/
structure Annotation where
  path : List ℕ
  collation : List Byte
deriving DecidableEq, Repr

/-- The variables of the loop; the top of the stack is first. -/
structure Walk where
  pending : List Frame
  path : List ℕ
  annotations : List Annotation

section Walks

def childAt (current : LogicalType) (ordinal : ℕ) : Option LogicalType :=
  match current with
  | .struct _ _ names child => if h : ordinal < names.length then some (child ⟨ordinal, h⟩) else none
  | .list _ child => if ordinal = 0 then some child else none
  | .array _ child _ => if ordinal = 0 then some child else none
  | .map _ key value => if ordinal = 0 then some key else if ordinal = 1 then some value else none
  | .union _ names member => if h : ordinal < names.length then some (member ⟨ordinal, h⟩) else none
  | .varchar _ _ | .geometry _ _ | .variant _ | .other _ _ => none

def annotationOf (n : List ℕ × LogicalType) : Option Annotation :=
  match n.2 with
  | .varchar _ collation => if collation = [] then none else some ⟨n.1, collation⟩
  | _ => none

def turn (s : Walk) : Option (List (List ℕ × LogicalType) × Walk) :=
  match s.pending with
  | [] => none
  | frame :: rest =>
    let log := if frame.visited then [] else [(s.path, frame.type)]
    let annotations := s.annotations ++ log.filterMap annotationOf
    match childAt frame.type frame.nextChild with
    | some child =>
      some (log,
        { pending := ⟨child, 0, false⟩ :: ⟨frame.type, frame.nextChild + 1, true⟩ :: rest
          path := s.path ++ [frame.nextChild]
          annotations := annotations })
    | none => some (log, { pending := rest, path := s.path.dropLast, annotations := annotations })

def Walk.start (type : LogicalType) : Walk := ⟨[⟨type, 0, false⟩], [], []⟩

/-- The copy that the caller gets. Nothing is copied where there is nothing, and an
allocation that fails leaves nothing: the first is that of the entries, and an entry
has one for its path, unless that is empty, and one for its collation. -/
def copyAnnotations (granted : ℕ → Bool) (annotations : List Annotation) : Option (List Annotation) :=
  if annotations = [] then some []
  else if granted 0 ∧ ∀ i < annotations.length,
      ((annotations[i]?.map Annotation.path) = some [] ∨ granted (2 * i + 1)) ∧ granted (2 * i + 2) then
    some annotations
  else none

/-- `pdd_bridge_type_annotations`, within a number of turns. -/
def typeAnnotations (granted : ℕ → Bool) (type : LogicalType) (turns : ℕ) : Option (Option (List Annotation)) :=
  (loop turn turns (Walk.start type)).map fun r ↦ copyAnnotations granted r.2.annotations

end Walks

variable {t : LogicalType} {i : ℕ} {path : List ℕ} {rest : List Frame} {annotations : List Annotation}

theorem childAt_eq (t : LogicalType) (i : ℕ) : childAt t i = t.children[i]? := by
  cases t with
  | struct typeAlias tuple names child => exact List.getElem?_ofFn.symm
  | union typeAlias names member => exact List.getElem?_ofFn.symm
  | list typeAlias child | array typeAlias child size =>
    cases i <;> rfl
  | map typeAlias key value =>
    match i with
    | 0 | 1 | _ + 2 => rfl
  | varchar typeAlias collation | geometry typeAlias crs | variant typeAlias | other typeAlias id => rfl

/-- The annotations of a type whose own path is `path`. -/
def annotationsAt (path : List ℕ) (nodes : List (List ℕ × LogicalType)) : List Annotation :=
  (nodes.map fun n ↦ (path ++ n.1, n.2)).filterMap annotationOf

/-- A turn at a frame that is not visited is one at a visited frame after the visit. -/
theorem turn_visit : turn ⟨⟨t, i, false⟩ :: rest, path, annotations⟩ =
    (turn ⟨⟨t, i, true⟩ :: rest, path, annotations ++ [(path, t)].filterMap annotationOf⟩).map fun r ↦
      ((path, t) :: r.1, r.2) := by
  unfold turn
  dsimp only
  rw [if_neg Bool.false_ne_true, if_pos rfl, List.filterMap_nil, List.append_nil]
  cases childAt t i <;> rfl

theorem turns_visit {n : ℕ} {log : List (List ℕ × LogicalType)} {s : Walk}
    (h : Turns turn (n + 1) ⟨⟨t, i, true⟩ :: rest, path, annotations ++ [(path, t)].filterMap annotationOf⟩ log s) :
    Turns turn (n + 1) ⟨⟨t, i, false⟩ :: rest, path, annotations⟩ ((path, t) :: log) s := by
  cases h with
  | succ hturn hrest =>
    refine Turns.succ (l := (path, t) :: _) ?_ hrest
    rw [turn_visit, hturn]
    rfl

/-- The walk of the children from number `i` on, which ends with the frame taken off. -/
theorem turns_children {cs : List LogicalType} (hcs : t.children.drop i = cs)
    (ih : ∀ c ∈ cs, ∀ path rest annotations, Turns turn (2 * c.nodes.length - 1)
      ⟨⟨c, 0, false⟩ :: rest, path, annotations⟩ (c.nodes.map fun n ↦ (path ++ n.1, n.2))
      ⟨rest, path.dropLast, annotations ++ annotationsAt path c.nodes⟩) (rest : List Frame) (annotations : List Annotation) :
    Turns turn (2 * (LogicalType.inChildren i cs).length + 1) ⟨⟨t, i, true⟩ :: rest, path, annotations⟩
      ((LogicalType.inChildren i cs).map fun n ↦ (path ++ n.1, n.2))
      ⟨rest, path.dropLast, annotations ++ annotationsAt path (LogicalType.inChildren i cs)⟩ := by
  induction cs generalizing i annotations with
  | nil =>
    have hnone : childAt t i = none := by
      rw [childAt_eq, List.getElem?_eq_none]
      exact List.drop_eq_nil_iff.mp hcs
    apply Turns.one
    unfold turn
    dsimp only
    rw [hnone]
    rfl
  | cons c cs ihcs =>
    have hsome : childAt t i = some c := by
      rw [childAt_eq, ← List.head?_drop, hcs]
      rfl
    have hdrop : t.children.drop (i + 1) = cs := by
      rw [← List.tail_drop, hcs]
      rfl
    have hpush : turn ⟨⟨t, i, true⟩ :: rest, path, annotations⟩ =
        some ([], ⟨⟨c, 0, false⟩ :: ⟨t, i + 1, true⟩ :: rest, path ++ [i], annotations⟩) := by
      unfold turn
      dsimp only
      rw [hsome, if_pos rfl, List.filterMap_nil, List.append_nil]
    have hchild := ih c List.mem_cons_self (path ++ [i]) (⟨t, i + 1, true⟩ :: rest) annotations
    have hrest := ihcs hdrop (fun d hd ↦ ih d (List.mem_cons_of_mem _ hd))
      (annotations ++ annotationsAt (path ++ [i]) c.nodes)
    rw [List.dropLast_concat] at hchild
    have hall := (Turns.succ hpush hchild).trans hrest
    have hturns : 2 * c.nodes.length - 1 + 1 + (2 * (LogicalType.inChildren (i + 1) cs).length + 1) =
        2 * (LogicalType.inChildren i (c :: cs)).length + 1 := by
      have hlen := c.length_nodes
      rw [LogicalType.inChildren_cons, List.length_append, List.length_map]
      omega
    have hshift : (c.nodes.map fun n ↦ (i :: n.1, n.2)).map (fun n ↦ (path ++ n.1, n.2)) =
        c.nodes.map fun n ↦ (path ++ [i] ++ n.1, n.2) := by
      rw [List.map_map]
      refine List.map_congr_left fun n _ ↦ ?_
      rw [List.append_assoc]
      rfl
    have hlog : ([] ++ c.nodes.map fun n ↦ (path ++ [i] ++ n.1, n.2)) ++
        (LogicalType.inChildren (i + 1) cs).map (fun n ↦ (path ++ n.1, n.2)) =
          (LogicalType.inChildren i (c :: cs)).map fun n ↦ (path ++ n.1, n.2) := by
      rw [LogicalType.inChildren_cons, List.map_append, hshift, List.nil_append]
    have hannotations : annotations ++ annotationsAt (path ++ [i]) c.nodes ++
        annotationsAt path (LogicalType.inChildren (i + 1) cs) =
          annotations ++ annotationsAt path (LogicalType.inChildren i (c :: cs)) := by
      unfold annotationsAt
      rw [LogicalType.inChildren_cons, List.map_append, hshift, List.filterMap_append, List.append_assoc]
    rwa [hturns, hlog, hannotations] at hall

/-- The walk of a type, which ends with its frame taken off. -/
theorem turns_type (t : LogicalType) (path : List ℕ) (rest : List Frame) (annotations : List Annotation) :
    Turns turn (2 * t.nodes.length - 1) ⟨⟨t, 0, false⟩ :: rest, path, annotations⟩
      (t.nodes.map fun n ↦ (path ++ n.1, n.2)) ⟨rest, path.dropLast, annotations ++ annotationsAt path t.nodes⟩ := by
  induction t using LogicalType.childInduction generalizing path rest annotations with
  | h t ih =>
    have hdrop : t.children.drop 0 = t.children := rfl
    have hchildren := turns_visit (turns_children hdrop ih rest (annotations ++ [(path, t)].filterMap annotationOf))
    have hturns : 2 * (LogicalType.inChildren 0 t.children).length + 1 = 2 * t.nodes.length - 1 := by
      have hlen := t.length_nodes
      omega
    have hannotations : annotations ++ [(path, t)].filterMap annotationOf ++
        annotationsAt path (LogicalType.inChildren 0 t.children) = annotations ++ annotationsAt path t.nodes := by
      unfold annotationsAt
      rw [LogicalType.nodes_eq, List.map_cons, List.append_nil, List.append_assoc, ← List.filterMap_append,
        List.singleton_append]
    have hlog : (path, t) :: (LogicalType.inChildren 0 t.children).map (fun n ↦ (path ++ n.1, n.2)) =
        t.nodes.map fun n ↦ (path ++ n.1, n.2) := by
      rw [LogicalType.nodes_eq t, List.map_cons, List.append_nil]
    rwa [hturns, hannotations, hlog] at hchildren

def Aligned (s : Walk) : Prop := s.pending ≠ [] → s.path.length + 1 = s.pending.length

theorem turn_aligned {s s' : Walk} {log : List (List ℕ × LogicalType)} (h : Aligned s) (hturn : turn s = some (log, s')) :
    Aligned s' := by
  obtain ⟨pending, path, annotations⟩ := s
  unfold turn at hturn
  cases pending with
  | nil => cases hturn
  | cons frame rest =>
    have hlen : path.length + 1 = rest.length + 1 := h (List.cons_ne_nil _ _)
    dsimp only at hturn
    cases hchild : childAt frame.type frame.nextChild with
    | some child =>
      rw [hchild] at hturn
      obtain ⟨-, rfl⟩ := Prod.mk.inj (Option.some.inj hturn)
      intro _
      simp only [List.length_append, List.length_cons, List.length_nil]
      omega
    | none =>
      rw [hchild] at hturn
      obtain ⟨-, rfl⟩ := Prod.mk.inj (Option.some.inj hturn)
      intro hne
      have hpos := List.length_pos_iff.mpr hne
      simp only [List.length_dropLast] at hpos ⊢
      omega

theorem copyAnnotations_cases (granted : ℕ → Bool) (annotations : List Annotation) :
    copyAnnotations granted annotations = some annotations ∨
      copyAnnotations granted annotations = none ∧ ∃ i, granted i = false := by
  unfold copyAnnotations
  by_cases hnil : annotations = []
  · rw [if_pos hnil, hnil]
    exact .inl rfl
  · rw [if_neg hnil]
    split_ifs with hgranted
    · exact .inl rfl
    · refine .inr ⟨rfl, ?_⟩
      by_contra hall
      apply hgranted
      have hyes (i : ℕ) : granted i = true := by
        by_contra hno
        exact hall ⟨i, by simpa using hno⟩
      exact ⟨hyes 0, fun i _ ↦ ⟨.inr (hyes _), hyes _⟩⟩

/-- The annotations that are handed out. A loop of twice as many turns as there are nodes
comes to its end, visits each node once, in the order of the ordinals that lead to it, and
annotates exactly the nodes that have a collation. -/
theorem typeAnnotations_nodes (t : LogicalType) :
    (∀ turns, 2 * t.nodes.length - 1 ≤ turns →
      (∃ s, loop turn turns (Walk.start t) = some (t.nodes, s) ∧
        s.annotations = t.nodes.filterMap annotationOf) ∧
      ∀ granted, typeAnnotations granted t turns = some (some (t.nodes.filterMap annotationOf)) ∨
        typeAnnotations granted t turns = some none ∧ ∃ i, granted i = false) ∧
    (∀ path c, (path, c) ∈ t.nodes ↔ t.at? path = some c) ∧
    (t.nodes.map Prod.fst).Pairwise (List.Lex (· < ·)) ∧
    ∀ n log s, Turns turn n (Walk.start t) log s → Aligned s := by
  have hturns := turns_type t [] [] []
  have hlog : (t.nodes.map fun n ↦ (([] : List ℕ) ++ n.1, n.2)) = t.nodes := List.map_id' t.nodes
  have hannotations : [] ++ annotationsAt [] t.nodes = t.nodes.filterMap annotationOf := by
    unfold annotationsAt
    rw [hlog, List.nil_append]
  rw [hlog, hannotations] at hturns
  refine ⟨fun turns hle ↦ ?_, fun path c ↦ t.mem_nodes, t.nodes_sorted, fun n log s h ↦ ?_⟩
  · have hloop := hturns.loop_eq rfl hle
    refine ⟨⟨_, hloop, rfl⟩, fun granted ↦ ?_⟩
    unfold typeAnnotations
    change loop turn turns (Walk.start t) = _ at hloop
    rw [hloop, Option.map_some]
    rcases copyAnnotations_cases granted (t.nodes.filterMap annotationOf) with h | ⟨h, hno⟩
    · exact .inl (congrArg some h)
    · exact .inr ⟨congrArg some h, hno⟩
  · exact h.invariant (fun _ _ _ ↦ turn_aligned) fun _ ↦ rfl

/-- A field with a collation after a deeper one without. -/
def siblingType : LogicalType :=
  .struct [] false [ascii "a", ascii "b"] fun i ↦
    if i.1 = 0 then .list [] (.varchar [] []) else .varchar [] (ascii "nocase")

theorem typeAnnotations_sibling :
    typeAnnotations (fun _ ↦ true) siblingType 7 = some (some [⟨[1], ascii "nocase"⟩]) ∧
      Aligned (Walk.start siblingType) := by
  obtain ⟨hloop, -, -, haligned⟩ := typeAnnotations_nodes siblingType
  refine ⟨?_, haligned 0 [] _ (.zero _)⟩
  rcases (hloop 7 (by decide)).2 fun _ ↦ true with h | ⟨-, i, hi⟩
  · exact h
  · cases hi

end PdoDuckdb.Bridge
