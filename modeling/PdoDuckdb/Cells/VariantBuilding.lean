import PdoDuckdb.Cells.Unfolding

namespace PdoDuckdb.Cells

open Library Library.Exits Value Relation

variable {engine : Engine} {H : Heap} {argpos depth levels table count : ℕ} {z : Zval} {object : Bool}
  {M : ℕ → Memory} {hs base : List Handle} {ss sbase : List StringHandle} {w : World}
  {F : VariantFrames} {f : VariantFrame} {p : Prop}

def Node.native : Node → Native
  | .null => .null
  | .scalar v => .scalar v
  | node => .variant node

theorem Node.node_native (node : Node) : node.native.node = some node := by
  cases node <;> rfl

/-- How requests for memory are met, and who holds the values and the strings
that are there. -/
structure World.Owes (w : World) (M : ℕ → Memory) (hs : List Handle) (ss : List StringHandle) :
    Prop where
  memory : w.memory = M
  values : w.values.Owes hs
  strings : w.strings.Owes ss

def Granted (M : ℕ → Memory) : Prop := ∀ i, M i = .granted

/-- An exit that has lost nothing; with memory for everything it has the reason `p`. -/
def Lost (M : ℕ → Memory) (p : Prop) (hs : List Handle) (ss : List StringHandle) (e : Stop)
    (w : World) : Prop :=
  w.Owes M hs ss ∧ e ≠ .outOfFrames ∧ (Granted M → p)

section Primitives

theorem World.Owes.perm {hs' : List Handle} {ss' : List StringHandle} (h : w.Owes M hs ss)
    (hhs : hs.Perm hs') (hss : ss.Perm ss') : w.Owes M hs' ss' :=
  ⟨h.memory, h.values.perm hhs, h.strings.perm hss⟩

theorem allocate_meets : Meets (·.Owes M hs ss) allocate (fun _ w ↦ w.Owes M hs ss)
    (Lost M p hs ss) := by
  intro w h
  have hw : w.allocate.Owes M hs ss := ⟨h.memory, h.values, h.strings⟩
  unfold allocate
  cases hm : w.memory w.allocations with
  | granted => exact hw
  | exhausted => exact ⟨hw, by decide, fun hM ↦ by simp [h.memory, hM _] at hm⟩
  | bailout => exact ⟨hw, by decide, fun hM ↦ by simp [h.memory, hM _] at hm⟩

theorem refuse_meets {α : Type} {kind : ErrorClass} {message : String} {Q : α → World → Prop}
    (hp : p) : Meets (·.Owes M hs ss) (refuse kind message) Q (Lost M p hs ss) :=
  allocate_meets.bind fun _ ↦ .exit fun _ h ↦ ⟨h, by simp, fun _ ↦ hp⟩

theorem create_meets {v : Native} {R : Stop → World → Prop} : Meets (·.Owes M hs ss) (create v)
    (fun h w ↦ h.2 = v ∧ w.Owes M (h :: hs) ss) R :=
  .step fun _ h ↦ ⟨rfl, h.memory, h.values.create v, h.strings⟩

theorem useValues_meets {used : List Handle} {R : Stop → World → Prop} (hused : ∀ h ∈ used, h ∈ hs) :
    Meets (·.Owes M hs ss) (useValues used) (fun _ w ↦ w.Owes M hs ss) R :=
  .step fun _ h ↦ ⟨h.memory, (h.values.use hused).symm ▸ h.values, h.strings⟩

theorem makeString_meets {s : List Byte} : Meets (·.Owes M hs ss) (makeString s)
    (fun h w ↦ h.2 = s ∧ w.Owes M hs (h :: ss)) (Lost M p hs ss) :=
  allocate_meets.bind fun _ ↦ .step fun _ h ↦ ⟨rfl, h.memory, h.values, h.strings.create s⟩

theorem VariantFrame.clear_owes (h : w.Owes M (f.held ++ hs) (f.strings ++ ss)) :
    (f.clear w).Owes M hs ss :=
  ⟨h.memory, h.values.releaseAll, h.strings.releaseAll⟩

theorem makeLeaf_variant_meets {kind : ErrorClass} {message : String} :
    Meets (·.Owes M hs ss) ((makeLeaf engine z .variant argpos).build kind message)
      (fun h w ↦ (∃ node, leafNode engine z = some node ∧ h.2 = node.native) ∧ w.Owes M (h :: hs) ss)
      (Lost M (leafNode engine z = none) hs ss) := by
  have hvalue : ∀ node : Node, leafNode engine z = some node →
      Meets (·.Owes M hs ss) (create node.native)
        (fun h w ↦ (∃ node, leafNode engine z = some node ∧ h.2 = node.native) ∧ w.Owes M (h :: hs) ss)
        (Lost M (leafNode engine z = none) hs ss) := fun node hnode ↦
    create_meets.mono (fun _ h ↦ h) (fun _ _ h ↦ ⟨⟨node, hnode, h.1⟩, h.2⟩) fun _ _ h ↦ h
  cases z with
  | null => exact hvalue .null rfl
  | bool b => exact hvalue (.scalar (.bool b)) rfl
  | long n => exact hvalue (.scalar (.integer .bigint n.toInt)) rfl
  | double bits => exact hvalue (.scalar (.double bits)) rfl
  | string s =>
    by_cases hvalid : engine.validUtf8 s
    · have hleaf : makeLeaf engine (.string s) .variant argpos = .value (.scalar (.varchar s)) := by
        simp [makeLeaf, hvalid]
      rw [hleaf]
      exact hvalue (.scalar (.varchar s)) (by simp [leafNode, hvalid])
    · have hleaf : makeLeaf engine (.string s) .variant argpos = .unsupported := by
        simp [makeLeaf, hvalid]
      rw [hleaf]
      exact refuse_meets (by simp [leafNode, hvalid])
  | array _ => exact refuse_meets rfl
  | object _ _ => exact refuse_meets rfl
  | resource => exact refuse_meets rfl
  | reference _ => exact refuse_meets rfl

end Primitives

section Frames

def framesHeld (F : VariantFrames) : List Handle :=
  (List.range (appenderMaxDepth + 1)).flatMap fun i ↦ (F i).held

def framesStrings (F : VariantFrames) : List StringHandle :=
  (List.range (appenderMaxDepth + 1)).flatMap fun i ↦ (F i).strings

theorem framesHeld_update (hd : depth ≤ appenderMaxDepth) (hzero : F depth = .zero) :
    (framesHeld (Function.update F depth f)).Perm (f.held ++ framesHeld F) := by
  have hempty : (F depth).held = [] := by
    rw [hzero]
    rfl
  have h : ((List.range (appenderMaxDepth + 1)).flatMap
      (Function.update (fun i ↦ (F i).held) depth f.held)).Perm (f.held ++ framesHeld F) :=
    Custody.flatMap_fill_perm List.nodup_range (List.mem_range.mpr (Nat.lt_succ_of_le hd)) hempty f.held
  have hupdate : (fun i ↦ (Function.update F depth f i).held) =
      Function.update (fun i ↦ (F i).held) depth f.held :=
    Function.comp_update VariantFrame.held F depth f
  rwa [← hupdate] at h

theorem framesStrings_update (hd : depth ≤ appenderMaxDepth) (hzero : F depth = .zero) :
    (framesStrings (Function.update F depth f)).Perm (f.strings ++ framesStrings F) := by
  have hempty : (F depth).strings = [] := by
    rw [hzero]
    rfl
  have h : ((List.range (appenderMaxDepth + 1)).flatMap
      (Function.update (fun i ↦ (F i).strings) depth f.strings)).Perm (f.strings ++ framesStrings F) :=
    Custody.flatMap_fill_perm List.nodup_range (List.mem_range.mpr (Nat.lt_succ_of_le hd)) hempty f.strings
  have hupdate : (fun i ↦ (Function.update F depth f i).strings) =
      Function.update (fun i ↦ (F i).strings) depth f.strings :=
    Function.comp_update VariantFrame.strings F depth f
  rwa [← hupdate] at h

theorem clearFrames_owes (h : w.Owes M (framesHeld F ++ hs) (framesStrings F ++ ss)) :
    (clearFrames F w).Owes M hs ss := by
  unfold framesHeld framesStrings at h
  unfold clearFrames
  generalize List.range (appenderMaxDepth + 1) = l at h ⊢
  induction l generalizing w with
  | nil => exact h
  | cons i l ih =>
    rw [List.flatMap_cons, List.flatMap_cons, List.append_assoc, List.append_assoc] at h
    exact ih (VariantFrame.clear_owes h)

/-- A frame is at work, over frames that others have: the values and the
strings of the frames, and those at hand. -/
structure Working (M : ℕ → Memory) (base : List Handle) (sbase : List StringHandle)
    (F : VariantFrames) (depth : ℕ) (f : VariantFrame) (hs : List Handle) (ss : List StringHandle)
    (s : VariantFrames × World) : Prop where
  frames : s.1 = Function.update F depth f
  owes : s.2.Owes M (hs ++ (f.held ++ (framesHeld F ++ base))) (ss ++ (f.strings ++ (framesStrings F ++ sbase)))

def Left (M : ℕ → Memory) (base : List Handle) (sbase : List StringHandle) (p : Prop) (e : Stop)
    (s : VariantFrames × World) : Prop :=
  Lost M p (framesHeld s.1 ++ base) (framesStrings s.1 ++ sbase) e s.2

theorem Working.left (hd : depth ≤ appenderMaxDepth) (hzero : F depth = .zero)
    {e : Stop} {s : VariantFrames × World} (hframes : s.1 = Function.update F depth f)
    (h : Lost M p (f.held ++ (framesHeld F ++ base)) (f.strings ++ (framesStrings F ++ sbase)) e s.2) :
    Left M base sbase p e s := by
  obtain ⟨howes, he, hp⟩ := h
  refine ⟨howes.perm ?_ ?_, he, hp⟩
  · rw [hframes, ← List.append_assoc]
    exact ((framesHeld_update hd hzero).append_right base).symm
  · rw [hframes, ← List.append_assoc]
    exact ((framesStrings_update hd hzero).append_right sbase).symm

theorem modifyFrame_meets {g : VariantFrame → VariantFrame} {hs' : List Handle}
    {ss' : List StringHandle} {R : Stop → VariantFrames × World → Prop}
    (hd : depth ≤ appenderMaxDepth)
    (hheld : (hs ++ f.held).Perm (hs' ++ (g f).held))
    (hstrings : (ss ++ f.strings).Perm (ss' ++ (g f).strings)) :
    Meets (Working M base sbase F depth f hs ss) (modifyFrame depth g)
      (fun _ ↦ Working M base sbase F depth (g f) hs' ss') R := by
  intro s h
  unfold modifyFrame
  rw [if_pos hd]
  refine ⟨?_, h.owes.perm ?_ ?_⟩
  · rw [h.frames, Function.update_self, Function.update_idem]
  · simpa only [List.append_assoc] using hheld.append_right (framesHeld F ++ base)
  · simpa only [List.append_assoc] using hstrings.append_right (framesStrings F ++ sbase)

theorem modifyFrame_keeps {g : VariantFrame → VariantFrame} {R : Stop → VariantFrames × World → Prop}
    (hd : depth ≤ appenderMaxDepth) (hheld : (g f).held = f.held) (hstrings : (g f).strings = f.strings) :
    Meets (Working M base sbase F depth f hs ss) (modifyFrame depth g)
      (fun _ ↦ Working M base sbase F depth (g f) hs ss) R :=
  modifyFrame_meets hd (by rw [hheld]) (by rw [hstrings])

theorem getFrame_meets {P : VariantFrames × World → Prop} {R : Stop → VariantFrames × World → Prop}
    (hd : depth ≤ appenderMaxDepth) :
    Meets P (getFrame depth) (fun f s ↦ f = s.1 depth ∧ P s) R := by
  intro s h
  unfold getFrame
  rw [if_pos hd]
  exact ⟨rfl, h⟩

theorem within_meets {α : Type} {m : Exits Stop World α} {Q : α → World → Prop}
    (hd : depth ≤ appenderMaxDepth) (hzero : F depth = .zero)
    (hm : Meets (·.Owes M (f.held ++ (framesHeld F ++ base)) (f.strings ++ (framesStrings F ++ sbase))) m Q
      (Lost M p (f.held ++ (framesHeld F ++ base)) (f.strings ++ (framesStrings F ++ sbase)))) :
    Meets (Working M base sbase F depth f [] []) (within m)
      (fun a s ↦ s.1 = Function.update F depth f ∧ Q a s.2) (Left M base sbase p) := by
  refine .within fun G ↦ ?_
  refine .assume (p := G = Function.update F depth f) (fun w h ↦ h.frames) fun hG ↦ ?_
  exact hm.mono (fun w h ↦ h.owes) (fun a w h ↦ ⟨hG, h⟩) fun e w h ↦ Working.left hd hzero hG h

theorem clearFrame_meets {h : Handle} {R : Stop → VariantFrames × World → Prop}
    (hd : depth ≤ appenderMaxDepth) (hzero : F depth = .zero) :
    Meets (Working M base sbase F depth f [h] []) (clearFrame depth)
      (fun _ s ↦ s.1 = F ∧ s.2.Owes M (h :: (framesHeld F ++ base)) (framesStrings F ++ sbase)) R := by
  intro s hs
  unfold clearFrame
  rw [if_pos hd]
  refine ⟨?_, VariantFrame.clear_owes (hs.owes.perm ?_ ?_)⟩
  · rw [hs.frames, Function.update_idem, ← hzero, Function.update_eq_self]
  · rw [hs.frames, Function.update_self]
    have hperm : (f.held ++ h :: (framesHeld F ++ base)).Perm
        (h :: (f.held ++ (framesHeld F ++ base))) := List.perm_middle
    exact hperm.symm
  · rw [hs.frames, Function.update_self]
    rfl

end Frames

section Variants

theorem keysError_eq_none {seen keys : List (List Byte)} (hnodup : (seen ++ keys).Nodup) :
    keysError seen keys = none ↔ ∀ k ∈ keys, k.length ≤ uint32Max := by
  induction keys generalizing seen with
  | nil => simp [keysError]
  | cons k keys ih =>
    have hk : k ∉ seen := fun hmem ↦ by
      have h := (List.nodup_append.mp hnodup).2.2 k hmem k List.mem_cons_self
      exact h rfl
    have hcontains : ¬ seen.contains k := fun h ↦ hk (List.contains_iff_mem.mp h)
    rw [keysError, List.forall_mem_cons, if_neg hcontains]
    split_ifs with hlong
    · simp [Nat.not_le_of_lt hlong]
    · rw [ih (List.perm_middle.nodup_iff.mp hnodup), and_iff_right (Nat.le_of_not_lt hlong)]

theorem mapM_node (nodes : List Node) : (nodes.map Node.native).mapM Native.node = some nodes := by
  induction nodes with
  | nil => rfl
  | cons node nodes ih => simp [Node.node_native, ih]

/-- The bridge makes the node of a table of the nodes of its values. -/
theorem makeVariant_eq {t : Table} {child : Zval → Option Node} {nodes : List Node}
    (hnodes : t.entries.mapM (fun e ↦ child e.2) = some nodes) :
    (makeVariant object (if object then t.entries.map fun e ↦ keyBytes e.1 else [])
      (nodes.map Node.native)).toOption =
        if object then t.objectNode child else some (.array nodes) := by
  have hcount : ¬ uint32Max < (nodes.map Node.native).length := by
    rw [List.length_map, Library.Collecting.length_of_mapM hnodes]
    exact Nat.not_lt_of_le (t.size.trans (by decide))
  unfold makeVariant
  rw [if_neg hcount]
  cases object with
  | false =>
    rw [if_neg (by decide), mapM_node]
    rfl
  | true =>
    have hkeys : keysError [] (t.entries.map fun e ↦ keyBytes e.1) = none ↔
        ∀ e ∈ t.entries, (keyBytes e.1).length ≤ uint32Max := by
      rw [keysError_eq_none t.distinct, List.forall_mem_map]
    unfold Table.objectNode
    by_cases hfit : t.KeysFit
    · rw [if_pos hfit, if_pos rfl, if_pos rfl, if_pos rfl, hkeys.mpr hfit, mapM_node, hnodes]
      rfl
    · rw [if_neg hfit, if_pos rfl, if_pos rfl, if_pos rfl]
      cases he : keysError [] (t.entries.map fun e ↦ keyBytes e.1) with
      | none => exact absurd (hkeys.mp he) hfit
      | some message => rfl

theorem native_of_makeVariant {keys : List (List Byte)} {natives : List Native} {node : Node}
    (h : makeVariant object keys natives = .ok node) : node.native = .variant node := by
  unfold makeVariant at h
  split at h
  · cases h
  · split at h
    · cases h
    · split at h
      · cases h
      · cases object <;> cases h <;> rfl

end Variants

section Containers

def Heap.Idle (H : Heap) (F : VariantFrames) (z : Zval) : Prop :=
  ∀ i table y, (F i).active = some table → ReflTransGen H.Step z y → H.tableOf y ≠ some table

/-- What a call of `pdo_duckdb_variant_input_build` does: it gives a value for the
unfolding and leaves the frames as they were, or it fails with everything in
the frames, and with enough memory only where there is no unfolding. -/
def Builds (engine : Engine) (H : Heap) (M : ℕ → Memory) (levels depth : ℕ) (z : Zval)
    (m : Building Handle) : Prop :=
  ∀ F base sbase, (∀ i ≥ depth, F i = .zero) →
    Meets (fun s ↦ s.1 = F ∧ s.2.Owes M (framesHeld F ++ base) (framesStrings F ++ sbase)) m
      (fun h s ↦ (∃ node, H.unfold engine levels z = some node ∧ h.2 = node.native) ∧
        s.1 = F ∧ s.2.Owes M (h :: (framesHeld F ++ base)) (framesStrings F ++ sbase))
      (Left M base sbase (H.Idle F z → H.unfold engine levels z = none))

structure Filled (table : ℕ) (object : Bool) (keys : List (List Byte)) (natives : List Native)
    (f : VariantFrame) : Prop where
  active : f.active = some table
  value : f.value = none
  children : ∃ hs, f.children = some hs ∧ hs.map Prod.snd = natives
  keys : f.keys = if object then some keys else none
  numericKeys : f.numericKeys.isSome = object

def Filling (M : ℕ → Memory) (base : List Handle) (sbase : List StringHandle) (F : VariantFrames)
    (depth table : ℕ) (object : Bool) (keys : List (List Byte)) (natives : List Native)
    (s : VariantFrames × World) : Prop :=
  ∃ f, Filled table object keys natives f ∧ Working M base sbase F depth f [] [] s

theorem openFrame_meets (hd : depth ≤ appenderMaxDepth) (hzero : F depth = .zero) :
    Meets (fun s ↦ s.1 = F ∧ s.2.Owes M (framesHeld F ++ base) (framesStrings F ++ sbase))
      (openFrame depth table count object)
      (fun _ ↦ Filling M base sbase F depth table object [] []) (Left M base sbase p) := by
  have hallocate (f : VariantFrame) : Meets (Working M base sbase F depth f [] []) (within allocate)
      (fun _ ↦ Working M base sbase F depth f [] []) (Left M base sbase p) :=
    (within_meets hd hzero allocate_meets).post fun _ _ h ↦ ⟨h.1, h.2⟩
  have hstart (s : VariantFrames × World)
      (h : s.1 = F ∧ s.2.Owes M (framesHeld F ++ base) (framesStrings F ++ sbase)) :
      Working M base sbase F depth .zero [] [] s :=
    ⟨by rw [h.1, ← hzero, Function.update_eq_self], h.2⟩
  refine Meets.pre ?_ hstart
  unfold openFrame
  refine (modifyFrame_keeps hd rfl rfl).bind fun _ ↦ (hallocate _).bind fun _ ↦ ?_
  refine (modifyFrame_keeps hd rfl rfl).bind fun _ ↦ ?_
  cases object with
  | false => exact .pure fun s h ↦ ⟨_, ⟨rfl, rfl, ⟨[], rfl, rfl⟩, rfl, rfl⟩, h⟩
  | true =>
    refine (hallocate _).bind fun _ ↦ (modifyFrame_keeps hd rfl rfl).bind fun _ ↦ ?_
    refine (hallocate _).bind fun _ ↦ (modifyFrame_keeps hd rfl rfl).post fun _ s h ↦ ?_
    exact ⟨_, ⟨rfl, rfl, ⟨[], rfl, rfl⟩, rfl, rfl⟩, h⟩

theorem storeKey_meets {keys : List (List Byte)} {natives : List Native} {k : Key}
    (hd : depth ≤ appenderMaxDepth) (hzero : F depth = .zero) :
    Meets (Filling M base sbase F depth table true keys natives) (storeKey depth k)
      (fun _ ↦ Filling M base sbase F depth table true (keys ++ [keyBytes k]) natives)
      (Left M base sbase p) := by
  refine .exists_pre fun f ↦ .assume (fun _ h ↦ h.1) fun hf ↦ Meets.pre ?_ fun _ h ↦ h.2
  cases k with
  | name n =>
    unfold storeKey
    refine (modifyFrame_keeps hd rfl rfl).post fun _ s h ↦ ?_
    refine ⟨f.pushKey n, ⟨hf.active, hf.value, hf.children, ?_, hf.numericKeys⟩, h⟩
    simp [VariantFrame.pushKey, hf.keys, keyBytes]
  | index i =>
    obtain ⟨ss, hss⟩ := Option.isSome_iff_exists.mp hf.numericKeys
    unfold storeKey
    refine (within_meets hd hzero makeString_meets).bind fun str ↦ ?_
    refine .assume (fun _ h ↦ h.2.1) fun hstr ↦ ?_
    have hpush : Meets (Working M base sbase F depth f [] [str])
        (modifyFrame depth (·.pushNumericKey str))
        (fun _ ↦ Working M base sbase F depth (f.pushNumericKey str) [] []) (Left M base sbase p) :=
      modifyFrame_meets hd (.refl _) (by
        simpa [VariantFrame.strings, VariantFrame.pushNumericKey, hss] using
          (List.perm_append_singleton str ss).symm)
    refine (hpush.pre fun s h ↦ ⟨h.1, h.2.2⟩).bind fun _ ↦ ?_
    refine (modifyFrame_keeps hd rfl rfl).post fun _ s h ↦ ?_
    refine ⟨(f.pushNumericKey str).pushKey str.2, ⟨hf.active, hf.value, hf.children, ?_, ?_⟩, h⟩
    · simp [VariantFrame.pushKey, VariantFrame.pushNumericKey, hf.keys, hstr, keyBytes]
    · simp [VariantFrame.pushKey, VariantFrame.pushNumericKey, hf.numericKeys]

/-- One turn of the loop adds the key and the value of a member. -/
theorem storeEntry_meets {child : Zval → Building Handle} {keys : List (List Byte)}
    {natives : List Native} {e : Key × Zval} (hd : depth ≤ appenderMaxDepth)
    (hclear : ∀ i ≥ depth, F i = .zero)
    (hchild : Builds engine H M levels (depth + 1) e.2 (child e.2))
    (hp : ((∀ y, ReflTransGen H.Step e.2 y → H.tableOf y ≠ some table) → H.Idle F e.2 →
      H.unfold engine levels e.2 = none) → p) :
    Meets (Filling M base sbase F depth table object keys natives) (storeEntry child depth object e)
      (fun _ s ↦ ∃ node, H.unfold engine levels e.2 = some node ∧
        Filling M base sbase F depth table object (keys ++ [keyBytes e.1]) (natives ++ [node.native]) s)
      (Left M base sbase p) := by
  have hzero : F depth = .zero := hclear depth le_rfl
  unfold storeEntry
  have hkey : Meets (Filling M base sbase F depth table object keys natives)
      (if object then storeKey depth e.1 else pure ⟨⟩)
      (fun _ ↦ Filling M base sbase F depth table object (keys ++ [keyBytes e.1]) natives)
      (Left M base sbase p) := by
    cases object with
    | true => exact storeKey_meets hd hzero
    | false =>
      refine .pure fun s ⟨f, hf, h⟩ ↦ ⟨f, ⟨hf.active, hf.value, hf.children, hf.keys, hf.numericKeys⟩, h⟩
  refine hkey.bind fun _ ↦ ?_
  refine .exists_pre fun f ↦ .assume (fun _ h ↦ h.1) fun hf ↦ Meets.pre ?_ fun _ h ↦ h.2
  have hupdated : ∀ i ≥ depth + 1, Function.update F depth f i = .zero := fun i hi ↦ by
    rw [Function.update_of_ne (by omega)]
    exact hclear i (by omega)
  have hcall := hchild (Function.update F depth f) base sbase hupdated
  have hheld := (framesHeld_update (f := f) hd hzero).append_right base
  have hstrings := (framesStrings_update (f := f) hd hzero).append_right sbase
  rw [List.append_assoc] at hheld hstrings
  refine Meets.bind (hcall.mono (fun s h ↦ ⟨h.frames, h.owes.perm hheld.symm hstrings.symm⟩)
    (fun _ _ h ↦ h) fun e s h ↦ ?_) fun h ↦ ?_
  · -- the frame at work is active on its own table, the others are those of the callers
    refine ⟨h.1, h.2.1, fun hM ↦ hp fun htable hidle ↦ h.2.2 hM fun i t y hactive hy ↦ ?_⟩
    by_cases hi : i = depth
    · rw [hi, Function.update_self, hf.active] at hactive
      exact Option.some.inj hactive ▸ htable y hy
    · rw [Function.update_of_ne hi] at hactive
      exact hidle i t y hactive hy
  · refine .assume (fun _ h ↦ h.1) fun ⟨node, hnode, hh⟩ ↦ ?_
    obtain ⟨built, hbuilt, hnatives⟩ := hf.children
    have hpush : Meets (Working M base sbase F depth f [h] []) (modifyFrame depth (·.pushChild h))
        (fun _ ↦ Working M base sbase F depth (f.pushChild h) [] []) (Left M base sbase p) := by
      refine modifyFrame_meets hd ?_ (.refl _)
      simpa [VariantFrame.held, VariantFrame.pushChild, hf.value, hbuilt] using
        (List.perm_append_singleton h built).symm
    refine (hpush.pre fun s hs ↦ ⟨hs.2.1, hs.2.2.perm (hheld.cons h) hstrings⟩).post fun _ s hs ↦ ?_
    refine ⟨node, hnode, f.pushChild h, ⟨hf.active, hf.value, ?_, hf.keys, hf.numericKeys⟩, hs⟩
    refine ⟨built ++ [h], by simp [VariantFrame.pushChild, hbuilt], ?_⟩
    rw [List.map_append, hnatives, List.map_singleton, hh]

/-- The loop over a table. -/
theorem storeEntries_meets {child : Zval → Building Handle} {entries : List (Key × Zval)}
    (hd : depth ≤ appenderMaxDepth) (hclear : ∀ i ≥ depth, F i = .zero)
    (hchild : ∀ y, Builds engine H M levels (depth + 1) y (child y))
    (hp : ∀ e ∈ entries, ((∀ y, ReflTransGen H.Step e.2 y → H.tableOf y ≠ some table) → H.Idle F e.2 →
      H.unfold engine levels e.2 = none) → p) :
    Meets (Filling M base sbase F depth table object [] []) (each (storeEntry child depth object) entries)
      (fun _ s ↦ ∃ nodes, entries.mapM (fun e ↦ H.unfold engine levels e.2) = some nodes ∧
        Filling M base sbase F depth table object (entries.map fun e ↦ keyBytes e.1)
          (nodes.map Node.native) s)
      (Left M base sbase p) := by
  let I := fun (done : List (Key × Zval)) s ↦ ∃ nodes,
    done.mapM (fun e ↦ H.unfold engine levels e.2) = some nodes ∧
      Filling M base sbase F depth table object (done.map fun e ↦ keyBytes e.1)
        (nodes.map Node.native) s
  refine (Meets.each (I := I) fun done e rest hsplit ↦ ?_).pre fun s h ↦ ⟨[], rfl, h⟩
  refine .exists_pre fun nodes ↦ .assume (fun _ h ↦ h.1) fun hnodes ↦ Meets.pre ?_ fun _ h ↦ h.2
  have he : e ∈ entries := by
    rw [hsplit]
    exact List.mem_append_right done List.mem_cons_self
  refine (storeEntry_meets hd hclear (hchild e.2) (hp e he)).post fun _ s ⟨node, hnode, h⟩ ↦ ?_
  refine ⟨nodes ++ [node], by simp [hnodes, hnode], ?_⟩
  rwa [List.map_append, List.map_append, List.map_singleton, List.map_singleton]

/-- The value of a frame that is filled. -/
theorem bridgeVariant_meets {f : VariantFrame} {keys : List (List Byte)} {natives : List Native}
    (hf : Filled table object keys natives f)
    (hp : (makeVariant object (if object then keys else []) natives).toOption = none → p) :
    Meets (·.Owes M (f.held ++ hs) ss) (bridgeVariant object f)
      (fun h w ↦ (∃ node, (makeVariant object (if object then keys else []) natives).toOption =
        some node ∧ h.2 = node.native) ∧ w.Owes M (h :: (f.held ++ hs)) ss)
      (Lost M p (f.held ++ hs) ss) := by
  obtain ⟨built, hbuilt, hnatives⟩ := hf.children
  have hkeys : f.keys.getD [] = if object then keys else [] := by
    rw [hf.keys]
    cases object <;> rfl
  have hheld : f.held = built := by simp [VariantFrame.held, hf.value, hbuilt]
  unfold bridgeVariant
  simp only [hbuilt, Option.getD_some, hnatives, hkeys, hheld]
  refine (useValues_meets fun h hh ↦ List.mem_append_left hs hh).bind fun _ ↦ ?_
  cases hmake : makeVariant object (if object then keys else []) natives with
  | error message => exact refuse_meets (hp (by rw [hmake]; rfl))
  | ok node =>
    refine create_meets.post fun h w hw ↦ ⟨⟨node, rfl, ?_⟩, hw.2⟩
    rw [hw.1, native_of_makeVariant hmake]

theorem isActive_eq_true (F : VariantFrames) :
    isActive F depth table ↔ ∃ i < depth, (F i).active = some table := by
  simp [isActive]

/-- What fails for a member of an idle value fails for the value. -/
theorem unfold_eq_none_of_entry {e : Key × Zval} (htable : H.tableOf z = some table)
    (he : e ∈ (H.table table).entries)
    (hfail : (∀ y, ReflTransGen H.Step e.2 y → H.tableOf y ≠ some table) → H.Idle F e.2 →
      H.unfold engine levels e.2 = none) (hidle : H.Idle F z) : H.unfold engine (levels + 1) z = none := by
  have hstep : H.Step z e.2 := by
    unfold Heap.Step Heap.children
    rw [htable]
    exact List.mem_map_of_mem he
  by_contra hne
  have hsome : (H.unfold engine (levels + 1) z).isSome := Option.isSome_iff_ne_none.mpr hne
  have hwithin := (Heap.isSome_unfold.mp hsome).1
  have hmember := (Heap.isSome_unfold_succ.mp hsome).2 e.2 hstep
  refine Option.isSome_iff_ne_none.mp hmember (hfail (fun y hy ↦ ?_) fun i t y hactive hy ↦ ?_)
  · exact hwithin.tableOf_ne (TransGen.head' hstep hy) htable
  · exact hidle i t y hactive (.head hstep hy)

theorem buildContainer_builds {child : Zval → Building Handle} (hd : depth ≤ appenderMaxDepth)
    (hchild : ∀ y, Builds engine H M levels (depth + 1) y (child y)) (htable : H.tableOf z = some table)
    (hunfold : H.unfold engine (levels + 1) z =
      if object then (H.table table).objectNode (H.unfold engine levels)
      else ((H.table table).entries.mapM fun e ↦ H.unfold engine levels e.2).map .array) :
    Builds engine H M (levels + 1) depth z (buildContainer child H argpos depth object table) := by
  intro F base sbase hclear s hs
  have hzero : F depth = .zero := hclear depth le_rfl
  unfold buildContainer
  split
  · rename_i hactive
    obtain ⟨i, -, hi⟩ := (isActive_eq_true s.1).mp hactive
    have hstart : Working M base sbase F depth .zero [] [] s :=
      ⟨by rw [hs.1, ← hzero, Function.update_eq_self], hs.2⟩
    have hp (hidle : H.Idle F z) : H.unfold engine (levels + 1) z = none :=
      absurd htable (hidle i table z (hs.1 ▸ hi) .refl)
    refine ((within_meets hd hzero (refuse_meets (Q := fun _ _ ↦ False) hp)).post fun _ _ h ↦ ?_)
      s hstart
    exact h.2.elim
  · refine Meets.bind (openFrame_meets hd hzero) (fun _ ↦ ?_) s hs
    refine Meets.bind (storeEntries_meets hd hclear hchild fun e he hfail ↦
      unfold_eq_none_of_entry htable he hfail) fun _ ↦ ?_
    refine .exists_pre fun nodes ↦ .assume (fun _ h ↦ h.1) fun hnodes ↦ Meets.pre ?_ fun _ h ↦ h.2
    have hmake : (makeVariant object
        (if object then (H.table table).entries.map fun e ↦ keyBytes e.1 else [])
        (nodes.map Node.native)).toOption = H.unfold engine (levels + 1) z := by
      rw [makeVariant_eq hnodes, hunfold, hnodes]
      rfl
    refine (getFrame_meets hd).bind fun f ↦ ?_
    refine .assume (p := Filled table object ((H.table table).entries.map fun e ↦ keyBytes e.1)
      (nodes.map Node.native) f) ?_ fun hf ↦ ?_
    · rintro s ⟨rfl, g, hg, hworking⟩
      rwa [hworking.frames, Function.update_self]
    · have hpre (s : VariantFrames × World) (h : f = s.1 depth ∧ Filling M base sbase F depth table object
          ((H.table table).entries.map fun e ↦ keyBytes e.1) (nodes.map Node.native) s) :
          Working M base sbase F depth f [] [] s := by
        obtain ⟨rfl, g, -, hworking⟩ := h
        rw [hworking.frames, Function.update_self]
        exact ⟨hworking.frames, hworking.owes⟩
      refine Meets.pre ?_ hpre
      refine (within_meets hd hzero (bridgeVariant_meets hf fun hnone _ ↦ hmake ▸ hnone)).bind fun h ↦ ?_
      refine .assume (fun _ h ↦ h.2.1) fun ⟨node, hnode, hh⟩ ↦ ?_
      refine ((clearFrame_meets hd hzero).pre fun s hs ↦ ⟨hs.1, hs.2.2⟩).bind fun _ ↦ ?_
      exact .pure fun s hs ↦ ⟨⟨node, hmake ▸ hnode, hh⟩, hs⟩

theorem within_frames_meets {α : Type} {m : Exits Stop World α} {Q : α → World → Prop}
    (hm : Meets (·.Owes M (framesHeld F ++ base) (framesStrings F ++ sbase)) m Q
      (Lost M p (framesHeld F ++ base) (framesStrings F ++ sbase))) :
    Meets (fun s ↦ s.1 = F ∧ s.2.Owes M (framesHeld F ++ base) (framesStrings F ++ sbase)) (within m)
      (fun a s ↦ s.1 = F ∧ Q a s.2) (Left M base sbase p) := by
  refine .within fun G ↦ .assume (p := G = F) (fun w h ↦ h.1) fun hG ↦ ?_
  refine hm.mono (fun w h ↦ h.2) (fun a w h ↦ ⟨hG, h⟩) fun e w h ↦ ?_
  rwa [← hG] at h

/-- A call that leaves the frames alone. -/
theorem within_builds {m : Exits Stop World Handle}
    (hm : ∀ hs ss, Meets (·.Owes M hs ss) m
      (fun h w ↦ (∃ node, H.unfold engine levels z = some node ∧ h.2 = node.native) ∧ w.Owes M (h :: hs) ss)
      (Lost M (H.unfold engine levels z = none) hs ss)) :
    Builds engine H M levels depth z (within m) := by
  intro F base sbase _
  refine (within_frames_meets (hm _ _)).mono (fun _ h ↦ h) (fun h s hs ↦ ⟨hs.2.1, hs.1, hs.2.2⟩) ?_
  exact fun e s ⟨howes, he, hnone⟩ ↦ ⟨howes, he, fun hM _ ↦ hnone hM⟩

theorem buildNode_builds {child : Zval → Building Handle} (hd : depth ≤ appenderMaxDepth)
    (hchild : ∀ y, Builds engine H M levels (depth + 1) y (child y)) :
    Builds engine H M (levels + 1) depth z (buildNode child engine H argpos depth z) := by
  have hleaf (y : Zval) (hy : H.unfold engine (levels + 1) z = leafNode engine y)
      (kind : ErrorClass) (message : String) : Builds engine H M (levels + 1) depth z
        (within ((makeLeaf engine y .variant argpos).build kind message)) := by
    refine within_builds fun hs ss ↦ ?_
    rw [hy]
    exact makeLeaf_variant_meets
  unfold buildNode
  split
  · rename_i table hz
    refine buildContainer_builds hd hchild (by simp [Heap.tableOf, hz]) ?_
    rw [Heap.unfold, hz]
    cases hlist : (H.table table).isList <;> simp [Table.node, hlist]
  · rename_i className table hz
    split
    · rename_i hstandard
      intro F base sbase hclear
      refine (within_frames_meets allocate_meets).bind fun _ ↦ ?_
      refine buildContainer_builds hd hchild (by simp [Heap.tableOf, hz]) ?_ F base sbase hclear
      rw [Heap.unfold, hz]
      simp [hstandard]
    · rename_i hstandard
      refine within_builds fun hs ss ↦ refuse_meets ?_
      rw [Heap.unfold, hz]
      simp [hstandard]
  · rename_i y hy hy'
    refine hleaf _ ?_ _ _
    rw [Heap.unfold]
    split
    · rename_i hz
      exact absurd hz (hy _)
    · rename_i hz
      exact absurd hz (hy' _ _)
    · rfl

theorem buildBelow_builds (h : depth + levels = appenderMaxDepth + 1) (z : Zval) :
    Builds engine H M levels depth z (buildBelow engine H argpos levels depth z) := by
  induction levels generalizing depth z with
  | zero => exact within_builds fun hs ss ↦ refuse_meets rfl
  | succ levels ih =>
    have hd : depth ≤ appenderMaxDepth := by omega
    intro F base sbase hclear
    unfold buildBelow
    refine (getFrame_meets hd).bind fun _ ↦ Meets.pre ?_ fun _ hs ↦ hs.2
    exact buildNode_builds hd (fun y ↦ ih (by omega) y) F base sbase hclear

end Containers

theorem variantInputBuild_builds :
    Builds engine H M (appenderMaxDepth + 1 - depth) depth z (variantInputBuild engine H argpos depth z) := by
  unfold variantInputBuild
  by_cases hd : depth ≤ appenderMaxDepth + 1
  · exact buildBelow_builds (by omega) z
  · have hlevels : appenderMaxDepth + 1 - depth = 0 := by omega
    rw [hlevels]
    exact within_builds fun hs ss ↦ refuse_meets rfl

/-- What a conversion gives is the value of the unfolding, and it gives nothing
but that back to whoever asked for it. -/
theorem buildVariant_meets :
    Meets (·.Owes M hs ss) (buildVariant engine H z argpos depth)
      (fun h w ↦ (∃ node, H.unfold engine (appenderMaxDepth + 1 - depth) z = some node ∧
        h.2 = node.native) ∧ w.Owes M (h :: hs) ss)
      (Lost M (H.unfold engine (appenderMaxDepth + 1 - depth) z = none) hs ss) := by
  have hnone : framesHeld (fun _ ↦ .zero) = [] := List.flatMap_eq_nil_iff.mpr fun _ _ ↦ rfl
  have hnone' : framesStrings (fun _ ↦ .zero) = [] := List.flatMap_eq_nil_iff.mpr fun _ _ ↦ rfl
  have hbuilds : Builds engine H M (appenderMaxDepth + 1 - depth) depth z
      (variantInputBuild engine H argpos depth z) := variantInputBuild_builds
  refine allocate_meets.bind fun _ ↦ .enclosed ?_
  refine (hbuilds (fun _ ↦ .zero) hs ss fun _ _ ↦ rfl).mono (fun s h ↦ ?_)
    (fun h s hs ↦ ⟨hs.1, clearFrames_owes ?_⟩) fun e s h ↦ ?_
  · rwa [hnone, hnone']
  · obtain ⟨-, hframes, howes⟩ := hs
    rw [hnone, hnone'] at howes
    rwa [hframes, hnone, hnone']
  · obtain ⟨howes, he, hfail⟩ := h
    refine ⟨clearFrames_owes howes, he, fun hM ↦ hfail hM fun i t y hactive ↦ ?_⟩
    cases hactive

theorem buildVariant_unfold {h : Handle} {w' : World} (hw : w.Owes M hs ss)
    (hrun : buildVariant engine H z argpos depth w = (.ok h, w')) :
    ∃ node, H.unfold engine (appenderMaxDepth + 1 - depth) z = some node ∧ h.2 = node.native := by
  have hmeets : Meets (·.Owes M hs ss) (buildVariant engine H z argpos depth) _ _ := buildVariant_meets
  have hends := hmeets w hw
  rw [hrun] at hends
  exact hends.1

theorem exists_buildVariant (hw : w.Owes M hs ss) (hM : Granted M)
    (hsome : (H.unfold engine (appenderMaxDepth + 1 - depth) z).isSome) :
    ∃ h w', buildVariant engine H z argpos depth w = (.ok h, w') := by
  have hmeets : Meets (·.Owes M hs ss) (buildVariant engine H z argpos depth) _ _ := buildVariant_meets
  have hends := hmeets w hw
  match buildVariant engine H z argpos depth w, hends with
  | (.ok h, w'), _ => exact ⟨h, w', rfl⟩
  | (.error stop, w'), hends =>
    rw [hends.2.2 hM] at hsome
    cases hsome

/-- A conversion to VARIANT yields the unfolding of the value, of a value that
is not too deep and of supported kinds always, and of a cyclic one never. At the
end the value is all that is there of what was created. -/
theorem buildVariant_run (hw : w.Owes M hs ss) :
    (∀ h w', buildVariant engine H z argpos depth w = (.ok h, w') →
      (∃ node, H.unfold engine (appenderMaxDepth + 1 - depth) z = some node ∧ h.2 = node.native) ∧
        w'.Owes M (h :: hs) ss) ∧
    (∀ stop w', buildVariant engine H z argpos depth w = (.error stop, w') →
      stop ≠ .outOfFrames ∧ w'.Owes M hs ss) ∧
    (Granted M → H.Within (appenderMaxDepth + 1 - depth) z →
      (∀ y, ReflTransGen H.Step z y → H.Supported engine y) →
        ∃ h w', buildVariant engine H z argpos depth w = (.ok h, w')) ∧
    (H.Cyclic z → ∃ stop w', buildVariant engine H z argpos depth w = (.error stop, w')) := by
  have hmeets : Meets (·.Owes M hs ss) (buildVariant engine H z argpos depth) _ _ := buildVariant_meets
  have hends := hmeets w hw
  match hrun : buildVariant engine H z argpos depth w, hends with
  | (.ok h, w'), hends =>
    refine ⟨?_, ?_, fun _ _ _ ↦ ⟨h, w', rfl⟩, fun hcyclic ↦ ?_⟩
    · rintro h' w'' heq
      cases heq
      exact hends
    · rintro stop w'' heq
      cases heq
    · obtain ⟨⟨node, hnode, -⟩, -⟩ := hends
      rw [Heap.unfold_eq_none_of_cyclic hcyclic] at hnode
      cases hnode
  | (.error stop, w'), hends =>
    obtain ⟨howes, hstop, hnone⟩ := hends
    refine ⟨?_, ?_, fun hM hwithin hsupported ↦ ?_, fun _ ↦ ⟨stop, w', rfl⟩⟩
    · rintro h' w'' heq
      cases heq
    · rintro stop' w'' heq
      cases heq
      exact ⟨hstop, howes⟩
    · have hsome := Heap.isSome_unfold.mpr ⟨hwithin, hsupported⟩
      rw [hnone hM] at hsome
      cases hsome

def World.empty : World := ⟨.empty, .empty, fun _ ↦ .granted, 0⟩

theorem World.owes_empty : World.empty.Owes (fun _ ↦ .granted) [] [] :=
  ⟨rfl, Custody.owes_empty, Custody.owes_empty⟩

def plainEngine : Engine := ⟨fun _ ↦ true, fun _ ↦ 0, fun _ ↦ 0, fun _ _ ↦ true⟩

/-- `[$a, &$a]` of `$a = [3 => 7, 'k' => null]`. -/
def sharingHeap : Heap where
  table
    | 0 => ⟨[(.index 0, .array 1), (.index 1, .reference 0)], by decide, by decide⟩
    | 1 => ⟨[(.index 3, .long 7), (.name (ascii "k"), .null)], by decide, by decide⟩
    | _ => .empty
  cell _ := .array 1

theorem buildVariant_sharingHeap : ∃ h w',
    buildVariant plainEngine sharingHeap (.array 0) 1 0 .empty = (.ok h, w') ∧
      w'.Owes (fun _ ↦ .granted) [h] [] := by
  have hrun : _ ∧ _ ∧ (_ → _ → _ → ∃ h w', buildVariant plainEngine sharingHeap (.array 0) 1 0 .empty =
      (.ok h, w')) ∧ _ := buildVariant_run World.owes_empty
  have hunfold : (sharingHeap.unfold plainEngine 3 (.array 0)).isSome := by decide
  obtain ⟨hwithin, hsupported⟩ := Heap.isSome_unfold.mp hunfold
  obtain ⟨h, w', hok⟩ := hrun.2.2.1 (fun _ ↦ rfl) (hwithin.mono (by decide)) hsupported
  exact ⟨h, w', hok, (hrun.1 h w' hok).2⟩

end PdoDuckdb.Cells
