import AnonCompiler.Ir.Syntax

/-!
# Editing a function

The arena and layout operations the passes are written with: allocating
instructions and blocks, appending to the layout, removing instructions and
blocks, replacing an instruction in place.  New handles are taken from the
counters, so the handle of a new instruction is `F.nextInst`.
-/

set_option autoImplicit false

namespace AnonCompiler.Ir

theorem mem_of_lookup {β : Type} {key : Nat} {value : β} {list : List (Nat × β)}
    (h : list.lookup key = some value) : (key, value) ∈ list := by
  obtain ⟨before, after, rfl, -⟩ := List.lookup_eq_some_iff.mp h
  simp

/-- A filter on the keys. -/
theorem lookup_filter_key {β : Type} (p : Nat → Bool) (list : List (Nat × β)) (key : Nat) :
    (list.filter fun entry => p entry.1).lookup key = if p key then list.lookup key else none := by
  induction list with
  | nil => simp
  | cons entry list ih =>
    obtain ⟨k, value⟩ := entry
    by_cases here : key = k
    · subst here
      by_cases kept : p key = true
      · simp [kept]
      · simp [kept, ih]
    · by_cases kept : p k = true
      · simp [kept, List.lookup_cons, beq_eq_false_iff_ne.mpr here, ih]
      · simp [kept, List.lookup_cons, beq_eq_false_iff_ne.mpr here, ih]

namespace FunctionData

/-- Allocate an instruction; its handle is `F.nextInst`. -/
def newInst (F : FunctionData) (data : InstData) : FunctionData :=
  { F with
    insts := Function.update F.insts F.nextInst (some data)
    nextInst := F.nextInst + 1 }

/-- Allocate the parameters of a block, from the given index on. -/
def newParams (F : FunctionData) (index : Nat) : List Ty → FunctionData
  | [] => F
  | ty :: rest => (F.newInst ⟨ty, .blockArgRef index⟩).newParams (index + 1) rest

/-- Allocate a block with fresh parameters; its handle is `F.nextBlock`. -/
def newBlock (F : FunctionData) (paramsTy : List Ty) : FunctionData :=
  let G := F.newParams 0 paramsTy
  { G with
    blockParams := Function.update G.blockParams F.nextBlock
      ((List.range paramsTy.length).map (F.nextInst + ·))
    nextBlock := F.nextBlock + 1 }

/-- Append a block without instructions to the layout. -/
def pushBlock (F : FunctionData) (bb : BasicBlock) : FunctionData :=
  { F with layout := F.layout ++ [(bb, [])] }

/-- Edit the instructions the layout places in one block. -/
def editBlock (F : FunctionData) (bb : BasicBlock) (edit : List Inst → List Inst) : FunctionData :=
  { F with
    layout := F.layout.map fun entry =>
      if entry.1 = bb then (entry.1, edit entry.2) else entry }

/-- Append an instruction to a block. -/
def insertInst (F : FunctionData) (bb : BasicBlock) (inst : Inst) : FunctionData :=
  F.editBlock bb (· ++ [inst])

/-- Put instructions right before the last one. -/
def beforeLast (new : List Inst) : List Inst → List Inst
  | [] => []
  | [last] => new ++ [last]
  | first :: second :: rest => first :: beforeLast new (second :: rest)

def insertBeforeTerminator (F : FunctionData) (bb : BasicBlock) (inst : Inst) : FunctionData :=
  F.editBlock bb (beforeLast [inst])

/-- Append a parameter to a block; its handle is `F.nextInst`. -/
def addParam (F : FunctionData) (bb : BasicBlock) (ty : Ty) : FunctionData :=
  { F.newInst ⟨ty, .blockArgRef ((F.blockParams bb).length + 1)⟩ with
    blockParams := Function.update F.blockParams bb (F.blockParams bb ++ [F.nextInst]) }

def removeInstData (F : FunctionData) (inst : Inst) : FunctionData :=
  { F with insts := Function.update F.insts inst none }

/-- Remove an instruction from the layout and from the arena. -/
def removeLayoutInst (F : FunctionData) (bb : BasicBlock) (inst : Inst) : FunctionData :=
  (F.editBlock bb (List.filter (· ≠ inst))).removeInstData inst

/-- Remove a block from the layout, and its instructions from the arena. -/
def removeLayoutBasicblock (F : FunctionData) (bb : BasicBlock) : FunctionData :=
  let G := ((F.blockInsts bb).getD []).foldl removeInstData F
  { G with layout := G.layout.filter fun entry => entry.1 ≠ bb }

/-- Replace an instruction in place. -/
def replaceInst (F : FunctionData) (inst : Inst) (data : InstData) : FunctionData :=
  { F with insts := Function.update F.insts inst (some data) }

variable {F : FunctionData} {bb : BasicBlock} {inst : Inst}

variable {insts : List Inst}

@[simp] theorem newInst_nextInst (data : InstData) : (F.newInst data).nextInst = F.nextInst + 1 :=
  rfl

@[simp] theorem newInst_layout (data : InstData) : (F.newInst data).layout = F.layout := rfl

@[simp] theorem newInst_nextBlock (data : InstData) : (F.newInst data).nextBlock = F.nextBlock :=
  rfl

@[simp] theorem newInst_blockParams (data : InstData) :
    (F.newInst data).blockParams = F.blockParams := rfl

@[simp] theorem newInst_insts (data : InstData) :
    (F.newInst data).insts = Function.update F.insts F.nextInst (some data) := rfl

theorem blockInsts_of_mem (nodup : F.blocks.Nodup) (member : (bb, insts) ∈ F.layout) :
    F.blockInsts bb = some insts := by
  unfold blockInsts blocks at *
  generalize F.layout = layout at *
  induction layout with
  | nil => simp at member
  | cons first rest ih =>
    obtain ⟨b, is⟩ := first
    simp only [List.map_cons, List.nodup_cons] at nodup
    rcases List.mem_cons.mp member with same | later
    · cases same
      simp
    · have differ : bb ≠ b := by
        rintro rfl
        exact nodup.1 (List.mem_map.mpr ⟨_, later, rfl⟩)
      rw [List.lookup_cons, beq_eq_false_iff_ne.mpr differ]
      exact ih nodup.2 later

theorem mem_of_blockInsts (h : F.blockInsts bb = some insts) : (bb, insts) ∈ F.layout :=
  mem_of_lookup h

/-- An instruction of a block is an instruction of the layout. -/
theorem mem_layoutInsts (h : F.blockInsts bb = some insts) (member : inst ∈ insts) :
    inst ∈ F.layoutInsts :=
  List.mem_flatMap.mpr ⟨_, mem_of_blockInsts h, member⟩

@[simp] theorem editBlock_blocks (edit : List Inst → List Inst) :
    (F.editBlock bb edit).blocks = F.blocks := by
  simp only [blocks, editBlock, List.map_map]
  refine List.map_congr_left fun entry _ => ?_
  simp only [Function.comp_apply]
  split <;> rfl

/-- Editing one block leaves the others alone. -/
theorem editBlock_blockInsts (edit : List Inst → List Inst) (b : BasicBlock) :
    (F.editBlock bb edit).blockInsts b =
      if b = bb then (F.blockInsts bb).map edit else F.blockInsts b := by
  unfold blockInsts editBlock
  simp only
  generalize F.layout = layout
  induction layout with
  | nil => simp
  | cons first rest ih =>
    obtain ⟨b', insts⟩ := first
    rw [List.map_cons]
    by_cases isEdited : b' = bb
    · subst isEdited
      by_cases isBlock : b = b'
      · subst isBlock
        simp
      · have differ := beq_eq_false_iff_ne.mpr isBlock
        simp only [if_true, List.lookup_cons, differ, ih, if_neg isBlock]
    · have differ := beq_eq_false_iff_ne.mpr (Ne.symm isEdited)
      simp only [if_neg isEdited, List.lookup_cons, differ, ih]
      by_cases isBlock : b = b'
      · subst isBlock
        simp [isEdited]
      · simp only [beq_eq_false_iff_ne.mpr isBlock]

section AddParams

variable {ty : Ty} {tys : List Ty}

end AddParams

/-! ## Removing blocks -/

theorem foldl_removeInstData (insts : List Inst) (F : FunctionData) :
    insts.foldl removeInstData F =
      { F with insts := fun x => if x ∈ insts then none else F.insts x } := by
  induction insts generalizing F with
  | nil => simp
  | cons inst insts ih =>
    rw [List.foldl_cons, ih, removeInstData]
    congr 1
    funext x
    by_cases first : x = inst
    · simp [first]
    · simp [first]

theorem removeLayoutBasicblock_eq (F : FunctionData) (bb : BasicBlock) :
    F.removeLayoutBasicblock bb = { F with
      layout := F.layout.filter fun entry => entry.1 ≠ bb
      insts := fun x => if x ∈ (F.blockInsts bb).getD [] then none else F.insts x } := by
  rw [removeLayoutBasicblock, foldl_removeInstData]

theorem removeLayoutBasicblock_blockInsts (F : FunctionData) (first bb : BasicBlock) :
    (F.removeLayoutBasicblock first).blockInsts bb =
      if bb = first then none else F.blockInsts bb := by
  rw [removeLayoutBasicblock_eq]
  refine (lookup_filter_key (· ≠ first) F.layout bb).trans ?_
  by_cases same : bb = first <;> simp [same, blockInsts]

/-- Removing blocks takes out their instructions, in whatever order the blocks go. -/
theorem removeBlocks_eq (removed : List BasicBlock) (F : FunctionData) :
    removed.foldl removeLayoutBasicblock F = { F with
      layout := F.layout.filter fun entry => entry.1 ∉ removed
      insts := fun x =>
        if ∃ bb ∈ removed, x ∈ (F.blockInsts bb).getD [] then none else F.insts x } := by
  induction removed generalizing F with
  | nil => simp
  | cons first removed ih =>
    have inside : ∀ x bb, x ∈ ((F.removeLayoutBasicblock first).blockInsts bb).getD [] ↔
        bb ≠ first ∧ x ∈ (F.blockInsts bb).getD [] := by
      intro x bb
      rw [removeLayoutBasicblock_blockInsts]
      by_cases same : bb = first <;> simp [same]
    rw [List.foldl_cons, ih]
    simp only [inside, List.exists_mem_cons_iff]
    rw [removeLayoutBasicblock_eq]
    congr 1
    · rw [List.filter_filter]
      refine List.filter_congr fun entry _ => ?_
      simp [Bool.and_comm]
    · funext x
      by_cases own : x ∈ (F.blockInsts first).getD []
      · simp [own]
      · simp only [own, if_false, false_or]
        refine if_congr (exists_congr fun bb => and_congr_right fun _ => ?_) rfl rfl
        exact ⟨And.right, fun member => ⟨fun same => own (same ▸ member), member⟩⟩

end FunctionData

end AnonCompiler.Ir
