import Mathlib.Data.List.ReduceOption
import AnonCompiler.Opt.Contraction
import AnonCompiler.Opt.DeadPhi

/-!
# Simplifying the control flow

`SimplifyCFG` of `opt/passes/simplify_cfg.rs`.  A branch on a constant becomes a jump, and
so does a branch whose arms go to one block with equal arguments.  Then the blocks that
only jump on are taken out of the layout.  All of this is repeated until nothing changes.

`none` is a panic: a block without a terminator, a value that is not there, or arguments
that the builder does not accept.
-/

set_option autoImplicit false

namespace AnonCompiler.Opt.SimplifyCfg

open Ir Lib.Chains

/-- The order in which the hash tables of one round are walked. -/
structure Order where
  /-- the blocks that only jump -/
  starts : List BasicBlock → List BasicBlock
  /-- the blocks that are removed -/
  removed : List BasicBlock → List BasicBlock

/-- The tables are walked over all of their entries. -/
structure Order.Walks (order : Order) : Prop where
  starts : ∀ keys, (order.starts keys).Perm keys
  removed : ∀ keys, (order.removed keys).Perm keys

/-! ## Branches that become jumps -/

structure Edit where
  branch : Inst
  target : BasicBlock
  args : List Inst

/-- What the condition and the arms of a branch are replaced by, if anything. -/
abbrev Choice :=
  Inst → BasicBlock → List Inst → BasicBlock → List Inst → Option (Option (BasicBlock × List Inst))

/-- The arm that a constant condition chooses. -/
def constArm (P : Program) (F : FunctionData) : Choice := fun cond tTarget tArgs fTarget fArgs =>
  (P.instData F cond).map fun data =>
    match data.kind with
    | .integer value => some (if value ≠ 0 then (tTarget, tArgs) else (fTarget, fArgs))
    | _ => none

/-- Either arm, if they are equal. -/
def sameArm (P : Program) (F : FunctionData) : Choice := fun _ tTarget tArgs fTarget fArgs =>
  if tTarget = fTarget then
    (InstEquiv.instsEqual P F tArgs fArgs).map fun same =>
      if same then some (tTarget, tArgs) else none
  else some none

def editOf (P : Program) (F : FunctionData) (choice : Choice) (bb : BasicBlock) :
    Option (Option Edit) := do
  let terminator ← F.terminator bb
  let data ← P.instData F terminator
  match data.kind with
  | .branch cond tTarget tArgs fTarget fArgs => do
      let chosen ← choice cond tTarget tArgs fTarget fArgs
      some (chosen.map fun arm => ⟨terminator, arm.1, arm.2⟩)
  | _ => some none

/-- Replace a branch by a jump. -/
def applyEdit (P : Program) (F : FunctionData) (edit : Edit) : Option FunctionData :=
  if DeadPhi.argsFit P F edit.target edit.args then
    some (F.replaceInst edit.branch ⟨.unit, .jump edit.target edit.args⟩)
  else none

/-- All edits are found before the first one is made. -/
def foldBranches (P : Program) (F : FunctionData) (choice : Choice) :
    Option (FunctionData × Bool) := do
  let found ← F.blocks.mapM (editOf P F choice)
  let edits := found.reduceOption
  let G ← edits.foldlM (applyEdit P) F
  some (G, !edits.isEmpty)

def foldConstConditionBranch (P : Program) (F : FunctionData) : Option (FunctionData × Bool) :=
  foldBranches P F (constArm P F)

def foldBranchSameTargetAndArgs (P : Program) (F : FunctionData) : Option (FunctionData × Bool) :=
  foldBranches P F (sameArm P F)

/-! ## Blocks that only jump -/

/-- Where a block goes that consists of a jump without arguments, unless it is the block itself. -/
def jumpTarget (P : Program) (F : FunctionData) (bb : BasicBlock) (insts : List Inst) :
    Option (Option BasicBlock) :=
  match insts with
  | [first] =>
    (P.instData F first).map fun data =>
      match data.kind with
      | .jump target args =>
        if args = [] ∧ F.blockParams bb = [] ∧ target ≠ bb then some target else none
      | _ => none
  | _ => some none

/-- The blocks that only jump, and where.  The entry block is skipped. -/
def candidates (P : Program) (F : FunctionData) : Option (List (BasicBlock × BasicBlock)) := do
  let found ← (F.layout.drop 1).mapM fun entry =>
    (jumpTarget P F entry.1 entry.2).map fun target => target.map (entry.1, ·)
  some found.reduceOption

def nextOf (found : List (BasicBlock × BasicBlock)) (bb : BasicBlock) : Option BasicBlock :=
  found.lookup bb

/-- The candidates whose jumps end outside of the candidates, and where they end. -/
def removable (order : Order) (found : List (BasicBlock × BasicBlock)) :
    Option (List (BasicBlock × BasicBlock)) := do
  let keys := found.map Prod.fst
  let finalTargets ← resolveAll
    (fun final => walk (nextOf found) final (keys.length + 1) [])
    (order.starts keys) fun _ => none
  some (keys.filterMap fun bb => (finalTargets bb).join.map (bb, ·))

/-- Move an edge to where its target leads. -/
def retargetEdge (F : FunctionData) (moved : List (BasicBlock × BasicBlock))
    (rewrites : LogicalEdgeRewriter) (edge : LogicalEdge) : Option LogicalEdgeRewriter :=
  match moved.lookup edge.target with
  | some target => rewrites.retarget F edge target edge.args
  | none => some rewrites

def retargetAll (F : FunctionData) (moved : List (BasicBlock × BasicBlock)) :
    Option LogicalEdgeRewriter :=
  F.blocks.foldlM (fun rewrites source =>
    (F.outgoingEdges source).foldlM (retargetEdge F moved) rewrites)
    .new

/-- The builder accepts the copies that count. -/
def acceptsAll (P : Program) (F : FunctionData) (rewrites : LogicalEdgeRewriter) : Bool :=
  rewrites.pending.all fun entry =>
    rewrites.pending.lookup entry.1 ≠ some entry.2 || DeadPhi.accepts P F entry.2.kind

def removeTrivialJumpBlock (P : Program) (order : Order) (F : FunctionData) :
    Option (FunctionData × Bool) := do
  let found ← candidates P F
  let moved ← removable order found
  if moved = [] then some (F, false)
  else do
    let rewrites ← retargetAll F moved
    if acceptsAll P F rewrites then
      some ((order.removed (moved.map Prod.fst)).foldl FunctionData.removeLayoutBasicblock
        (rewrites.apply F).1, true)
    else none

/-! ## The pass -/

def round (P : Program) (order : Order) (F : FunctionData) : Option (FunctionData × Bool) := do
  let (F, constant) ← foldConstConditionBranch P F
  let (F, same) ← foldBranchSameTargetAndArgs P F
  let (F, trivial) ← removeTrivialJumpBlock P order F
  some (F, constant || same || trivial)

/-- Rounds until nothing changes; each has its own order. -/
def rounds (P : Program) (orders : Nat → Order) : Nat → FunctionData → Option (FunctionData × Bool)
  | 0, _ => none
  | fuel + 1, F => do
      let (G, changed) ← round P (orders fuel) F
      if changed then (rounds P orders fuel G).map fun result =>
        (result.1, true) else some (G, false)

/-- The function after the pass, and whether it has changed. -/
def runOn (P : Program) (orders : Nat → Order) (fuel : Nat) (F : FunctionData) :
    Option (FunctionData × Bool) :=
  if F.entryBlock = none then some (F, false) else rounds P orders fuel F

/-! ## Branches that become jumps -/

/-- What a choice has to be: it answers for every branch, with one of its arms, and the branch takes
that arm, or an arm with the same values. -/
structure Settles (P : Program) (F : FunctionData) (choice : Choice) : Prop where
  answers : ∀ {inst ty cond t tArgs f fArgs},
    F.insts inst = some ⟨ty, .branch cond t tArgs f fArgs⟩ →
      choice cond t tArgs f fArgs ≠ none
  arm : ∀ {cond t tArgs f fArgs chosen}, choice cond t tArgs f fArgs = some (some chosen) →
    chosen = (t, tArgs) ∨ chosen = (f, fArgs)
  runs : ∀ {X : Ctx}, X.globals = P.globals → InstEquiv.Commutes X.floats →
    ∀ {a : Activation} {done inst rest ty cond t tArgs f fArgs chosen c vals},
      a.Consistent X F done →
      Env.Shaped F a.env → a.rest = inst :: rest →
      F.insts inst = some ⟨ty, .branch cond t tArgs f fArgs⟩ →
      choice cond t tArgs f fArgs = some (some chosen) → X.operand F a.env cond = some (.int c) →
      X.operands F a.env (if c ≠ 0 then tArgs else fArgs) = some vals →
      (if c ≠ 0 then t else f) = chosen.1 ∧ X.operands F a.env chosen.2 = some vals

section Choices

variable {P : Program} {F : FunctionData} (valid : Valid P F)

include valid

theorem constArm_settles : Settles P F (constArm P F) where
  answers {inst ty cond t tArgs f fArgs} found := by
    obtain ⟨data, isData, -⟩ := valid.operands (valid.wellFormed.instData_eq found)
      (x := cond) (by simp [InstKind.instUsage])
    simp [constArm, isData]
  arm {cond t tArgs f fArgs chosen} isChosen := by
    obtain ⟨⟨ty, kind⟩, -, isArm⟩ := Option.map_eq_some_iff.mp isChosen
    cases kind with
    | integer value =>
      obtain rfl := Option.some.inj isArm
      split <;> simp
    | _ => cases isArm
  runs {X} globals _ {a done inst rest ty cond t tArgs f fArgs chosen c vals} _ _ _ _
      isChosen decided operands := by
    obtain ⟨⟨ty', kind⟩, isData, isArm⟩ := Option.map_eq_some_iff.mp isChosen
    cases kind with
    | integer value =>
      obtain rfl := Option.some.inj isArm
      rw [← Ctx.instData_eq globals] at isData
      simp only [Ctx.operand, isData, Ctx.isConst, if_true, Ctx.constVal] at decided
      obtain rfl : value = c := by simpa using decided
      split <;> simp_all
    | _ => cases isArm

theorem sameArm_settles
    (constants : ∀ {x data}, P.globals x = some data → Ctx.isConst data.kind = true) :
    Settles P F (sameArm P F) where
  answers {inst ty cond t tArgs f fArgs} found := by
    have present : ∀ x ∈ tArgs ++ fArgs, P.instData F x ≠ none := by
      intro x used
      obtain ⟨data, isData, -⟩ := valid.operands (valid.wellFormed.instData_eq found) (x := x)
        (List.mem_cons_of_mem _ used)
      simp [isData]
    rw [List.forall_mem_append] at present
    obtain ⟨answer, equal⟩ := InstEquiv.instsEqual_answers valid.operands present.1 present.2
    unfold sameArm
    split
    · simp [equal]
    · simp
  arm {cond t tArgs f fArgs chosen} isChosen := by
    unfold sameArm at isChosen
    split at isChosen
    · obtain ⟨same, -, isArm⟩ := Option.map_eq_some_iff.mp isChosen
      split at isArm
      · exact .inl (Option.some.inj isArm).symm
      · cases isArm
    · cases isChosen
  runs {X} globals commutes {a done inst rest ty cond t tArgs f fArgs chosen c vals}
      place shaped current found isChosen _ operands := by
    unfold sameArm at isChosen
    split at isChosen
    · next sameTarget =>
        subst sameTarget
        obtain ⟨same, equal, isArm⟩ := Option.map_eq_some_iff.mp isChosen
        split at isArm
        · next isSame =>
            subst isSame
            obtain rfl := Option.some.inj isArm
            -- both arms are known at the branch
            have known : ∀ x ∈ tArgs ++ fArgs, InstEquiv.Known F a done x := fun x used =>
              valid.ssa.uses (place.toAt.placed current) found (List.mem_cons_of_mem _ used)
            rw [List.forall_mem_append] at known
            have each := InstEquiv.instsEqual_sound
              (InstEquiv.agree_congruence globals valid.wellFormed valid.typed valid.ssa
                valid.shaped constants commutes place shaped) equal
            have sameVals := InstEquiv.agree_operands each known.1 known.2
            refine ⟨by split <;> rfl, ?_⟩
            split at operands
            · exact operands
            · exact sameVals.trans operands
        · cases isArm
    · cases isChosen

end Choices

/-- The edit replaces the branch of a block by the arm that is chosen. -/
def EditOf (F : FunctionData) (choice : Choice) (edit : Edit) : Prop :=
  ∃ bb ∈ F.blocks, F.terminator bb = some edit.branch ∧ ∃ ty cond t tArgs f fArgs,
    F.insts edit.branch = some ⟨ty, .branch cond t tArgs f fArgs⟩ ∧
      choice cond t tArgs f fArgs = some (some (edit.target, edit.args))

/-- The function with some branches replaced. -/
structure Folded (F G : FunctionData) (choice : Choice) : Prop where
  frame : G = { F with insts := G.insts }
  insts : ∀ x, (∃ edit, EditOf F choice edit ∧ edit.branch = x ∧
    G.insts x = some ⟨.unit, .jump edit.target edit.args⟩) ∨ G.insts x = F.insts x

section Fold

variable {P : Program} {F G : FunctionData} {choice : Choice} {bb : BasicBlock}

variable {edit : Edit} {H : FunctionData} {inst : Inst} {changed : Bool}

/-- Every block has a terminator, so every block is looked at. -/
theorem editOf_answers (valid : Valid P F) (settles : Settles P F choice) (placed : bb ∈ F.blocks) :
    ∃ found, editOf P F choice bb = some found ∧ ∀ edit, found = some edit →
      EditOf F choice edit := by
  obtain ⟨terminator, kind, isTerminator, isKind, -⟩ := valid.terminated.terminator bb placed
  obtain ⟨⟨ty, kind⟩, found, rfl⟩ := Option.map_eq_some_iff.mp isKind
  have isData : P.instData F terminator = some ⟨ty, kind⟩ := valid.wellFormed.instData_eq found
  cases kind with
  | branch cond t tArgs f fArgs =>
    obtain ⟨chosen, isChosen⟩ := Option.ne_none_iff_exists'.mp (settles.answers found)
    refine ⟨chosen.map fun arm => ⟨terminator, arm.1, arm.2⟩, ?_, ?_⟩
    · simp [editOf, isTerminator, isData, isChosen]
    · rintro edit isEdit
      obtain ⟨arm, rfl, rfl⟩ := Option.map_eq_some_iff.mp isEdit
      exact ⟨bb, placed, isTerminator, ty, cond, t, tArgs, f, fArgs, found, isChosen⟩
  | _ =>
    have nothing : editOf P F choice bb = some none := by
      rw [editOf, isTerminator, Option.bind_eq_bind, Option.bind_some, isData]
      rfl
    exact ⟨none, nothing, fun edit isEdit => by cases isEdit⟩

theorem EditOf.unit (valid : Valid P F) (isEdit : EditOf F choice edit) :
    ∃ kind, F.insts edit.branch = some ⟨.unit, kind⟩ := by
  obtain ⟨-, -, -, ty, cond, t, tArgs, f, fArgs, found, -⟩ := isEdit
  obtain rfl : ty = .unit := valid.typed.terminator found rfl
  exact ⟨_, found⟩

/-- The arm that replaces the branch is an edge. -/
theorem EditOf.edge (settles : Settles P F choice) {edit : Edit} (isEdit : EditOf F choice edit)
    (isTerminator : F.terminator bb = some edit.branch) :
    ∃ e ∈ F.outgoingEdges bb, e.args = edit.args ∧ e.target = edit.target := by
  obtain ⟨-, -, -, ty, cond, t, tArgs, f, fArgs, found, isChosen⟩ := isEdit
  have isKind : F.kind edit.branch = some (.branch cond t tArgs f fArgs) := by
    rw [FunctionData.kind, found]
    rfl
  have edges : F.outgoingEdges bb = [⟨bb, edit.branch, .onTrue, t, tArgs⟩,
      ⟨bb, edit.branch, .onFalse, f, fArgs⟩] := by
    simp [FunctionData.outgoingEdges, isTerminator, isKind]
  rw [edges]
  rcases settles.arm isChosen with isArm | isArm
  · cases isArm
    exact ⟨_, List.mem_cons_self, rfl, rfl⟩
  · cases isArm
    exact ⟨_, List.mem_cons_of_mem _ List.mem_cons_self, rfl, rfl⟩

/-- The builder accepts the jump. -/
theorem EditOf.fits (valid : Valid P F) (settles : Settles P F choice)
    (isEdit : EditOf F choice edit) : DeadPhi.argsFit P F edit.target edit.args = true := by
  obtain ⟨bb, -, isTerminator, -⟩ := id isEdit
  obtain ⟨e, leaves, args, target⟩ := isEdit.edge settles isTerminator
  have types := valid.shaped.edge leaves
  rw [args, target] at types
  exact decide_eq_true types

/-- The edits are made one after the other. -/
theorem applyEdits (edits : List Edit)
    (isEdit : ∀ edit ∈ edits, (∃ kind, F.insts edit.branch = some ⟨.unit, kind⟩) ∧
    DeadPhi.argsFit P F edit.target edit.args = true)
    (types : ∀ x, (H.insts x).map InstData.ty = (F.insts x).map InstData.ty)
    (params : H.blockParams = F.blockParams) :
    ∃ G, edits.foldlM (applyEdit P) H = some G ∧ G = { H with insts := G.insts } ∧
      ∀ x, (∃ edit ∈ edits, edit.branch = x ∧
          G.insts x = some ⟨.unit, .jump edit.target edit.args⟩) ∨
        (∀ edit ∈ edits, edit.branch ≠ x) ∧ G.insts x = H.insts x := by
  induction edits generalizing H with
  | nil => exact ⟨H, rfl, rfl, fun x => .inr ⟨by simp, rfl⟩⟩
  | cons edit edits ih =>
    rw [List.forall_mem_cons] at isEdit
    obtain ⟨⟨⟨kind, isUnit⟩, fits⟩, later⟩ := isEdit
    have applied : applyEdit P H edit =
        some (H.replaceInst edit.branch ⟨.unit, .jump edit.target edit.args⟩) := by
      rw [applyEdit, DeadPhi.argsFit, DeadPhi.typeOf_congr types, params]
      exact if_pos fits
    obtain ⟨G, rest, frame, insts⟩ := ih (H := H.replaceInst edit.branch
        ⟨.unit, .jump edit.target edit.args⟩) later
      (fun x => by
        by_cases isBranch : x = edit.branch
        · simp [FunctionData.replaceInst, isBranch, isUnit]
        · simp [FunctionData.replaceInst, isBranch, types x])
      params
    refine ⟨G, by rw [List.foldlM_cons, applied]; exact rest, frame, fun x => ?_⟩
    rcases insts x with ⟨edit', member, here⟩ | ⟨notLater, same⟩
    · exact .inl ⟨edit', List.mem_cons_of_mem _ member, here⟩
    · by_cases isBranch : edit.branch = x
      · refine .inl ⟨edit, List.mem_cons_self, isBranch, ?_⟩
        rw [same, ← isBranch]
        exact Function.update_self ..
      · refine .inr ⟨List.forall_mem_cons.mpr ⟨isBranch, notLater⟩, ?_⟩
        rw [same]
        exact Function.update_of_ne (Ne.symm isBranch) ..

theorem EditOf.args_subset (settles : Settles P F choice) {cond : Inst} {t f : BasicBlock}
    {tArgs fArgs : List Inst}
    (isChosen : choice cond t tArgs f fArgs = some (some (edit.target, edit.args))) :
    edit.args ⊆ (InstKind.branch cond t tArgs f fArgs).instUsage := by
  intro x used
  rcases settles.arm isChosen with isArm | isArm <;> cases isArm <;> simp [InstKind.instUsage, used]

section

variable (isTerminator : F.terminator bb = some inst) (isTerminator' : G.terminator bb = some inst)
  (same : G.insts inst = F.insts inst)
include isTerminator isTerminator' same

theorem outgoingEdges_congr : G.outgoingEdges bb = F.outgoingEdges bb := by
  unfold FunctionData.outgoingEdges FunctionData.kind
  simp only [isTerminator, isTerminator', same]

theorem isBranch_congr : isBranch G bb = isBranch F bb := by
  unfold isBranch FunctionData.kind
  simp only [isTerminator, isTerminator', Option.bind_some, same]

end

namespace Folded

variable (h : Folded F G choice)

include h

theorem terminator (bb : BasicBlock) : G.terminator bb = F.terminator bb := by
  rw [h.frame]
  rfl

theorem not_isBranch (edit : Edit) (isTerminator : F.terminator bb = some edit.branch)
    (after : G.insts edit.branch = some ⟨.unit, .jump edit.target edit.args⟩) :
    isBranch G bb = false := by
  simp [isBranch, h.terminator, isTerminator, FunctionData.kind, after]

theorem contracted (valid : Valid P F) (settles : Settles P F choice) :
    Contracted F G (fun _ => none) id where
  leftOut isNext := by cases isNext
  leads bb := .out rfl
  layout := by
    rw [h.frame]
    simp
  params := by rw [h.frame]
  blockParams := by rw [h.frame]
  nextInst := by rw [h.frame]
  nextBlock := by rw [h.frame]
  insts x := by
    rcases h.insts x with ⟨edit, isEdit, rfl, after⟩ | same
    · obtain ⟨-, -, -, ty, cond, t, tArgs, f, fArgs, found, isChosen⟩ := isEdit
      refine .inr ⟨_, found, rfl, fun {data'} found' => ?_⟩
      obtain rfl := Option.some.inj (after.symm.trans found')
      obtain rfl : ty = .unit := valid.typed.terminator found rfl
      exact ⟨rfl, rfl, EditOf.args_subset settles isChosen⟩
    · exact .inl same
  kept {bb insts} _ block x inside := by
    rcases h.insts x with ⟨edit, -, rfl, after⟩ | same
    · simp [after]
    · obtain ⟨data, found, -⟩ :=
        valid.wellFormed.laidOut (FunctionData.mem_layoutInsts block inside)
      simp [same, found]
  edge {bb e'} _ leaves := by
    obtain ⟨rfl, isTerminator⟩ := terminator_of_edge leaves
    have isTerminator' := isTerminator
    rw [h.terminator] at isTerminator'
    rcases h.insts e'.terminator with ⟨edit, isEdit, isBranch, after⟩ | same
    · obtain ⟨e, leaves', args, target⟩ := isEdit.edge settles (isBranch ▸ isTerminator')
      have isJump : G.kind e'.terminator = some (.jump edit.target edit.args) := by
        rw [FunctionData.kind, after]
        rfl
      refine ⟨e, leaves', ?_⟩
      rcases kind_of_edge leaves with ⟨-, isKind⟩ | ⟨_, _, _, -, isKind⟩ | ⟨_, _, _, -, isKind⟩
      · obtain ⟨sameTarget, sameArgs⟩ :=
          InstKind.jump.inj (Option.some.inj (isJump.symm.trans isKind))
        exact ⟨args.trans sameArgs, (target.trans sameTarget).symm⟩
      · cases isJump.symm.trans isKind
      · cases isJump.symm.trans isKind
    · rw [outgoingEdges_congr isTerminator' isTerminator same] at leaves
      exact ⟨e', leaves, rfl, rfl⟩
  branch {bb} _ after := by
    cases isTerminator : F.terminator bb with
    | none => simp [isBranch, h.terminator, isTerminator] at after
    | some inst =>
      rcases h.insts inst with ⟨edit, -, rfl, isJump⟩ | same
      · rw [h.not_isBranch edit isTerminator isJump] at after
        cases after
      · rwa [isBranch_congr isTerminator (by rw [h.terminator, isTerminator]) same] at after

/-- The jump goes where the branch went. -/
theorem goes (valid : Valid P F) (settles : Settles P F choice) {X : Ctx}
    (globals : X.globals = P.globals) (commutes : InstEquiv.Commutes X.floats) :
    GoesOnward X F G (fun _ => none) id := by
  intro a done m inst rest target vals place shaped current _ effect
  have contracted := h.contracted valid settles
  rcases h.insts inst with ⟨edit, isEdit, rfl, after⟩ | same
  · obtain ⟨-, -, -, ty, cond, t, tArgs, f, fArgs, found, isChosen⟩ := isEdit
    obtain ⟨c, vals', decided, operands, isGoto⟩ := (exec_branch found).mp effect
    obtain ⟨rfl, rfl⟩ := Effect.goto.inj isGoto
    obtain ⟨isTarget, taken⟩ := settles.runs globals commutes place shaped current found isChosen
      decided operands
    rw [isTarget]
    refine (exec_jump after).mpr ⟨_, ?_, rfl⟩
    rw [← taken]
    exact Ctx.operands_congr fun x used => (contracted.sameOperand valid globals found
      (EditOf.args_subset settles isChosen used) a.env).value
  · obtain ⟨data, found⟩ := exec_isSome effect
    exact contracted.exec_eq valid globals found (same.trans found) effect

end Folded

/-- What a phase of a round does. -/
structure Simplified (P : Program) (F G : FunctionData) (changed : Bool) : Prop where
  valid : Valid P G
  entryBlock : G.entryBlock = F.entryBlock
  blocks : G.blocks.Sublist F.blocks
  refines : ∀ {X : Ctx}, X.globals = P.globals → InstEquiv.Commutes X.floats →
    Refines X F G (isPlaced G)
  same : changed = false → G = F
  smaller : changed = true → size G < size F

theorem Contracted.simplified {next : BasicBlock → Option BasicBlock}
    {onward : BasicBlock → BasicBlock} (h : Contracted F G next onward) (valid : Valid P F)
    (goes : ∀ {X : Ctx}, X.globals = P.globals → InstEquiv.Commutes X.floats →
    GoesOnward X F G next onward)
    (same : changed = false → G = F) (smaller : changed = true → size G < size F) :
    Simplified P F G changed where
  valid := h.keepsValid valid
  entryBlock := h.entryBlock
  blocks := by
    rw [h.blocks]
    exact List.filter_sublist
  refines globals commutes := h.refines valid globals (goes globals commutes)
  same := same
  smaller := smaller

theorem Contracted.refl (valid : Valid P F) : Contracted F F (fun _ => none) id where
  leftOut isNext := by cases isNext
  leads bb := .out rfl
  layout := by simp
  params := rfl
  blockParams := rfl
  nextInst := rfl
  nextBlock := rfl
  insts x := .inl rfl
  kept {bb insts} _ block x inside := by
    obtain ⟨data, found, -⟩ := valid.wellFormed.laidOut (FunctionData.mem_layoutInsts block inside)
    simp [found]
  edge {bb e'} _ leaves := ⟨e', leaves, rfl, rfl⟩
  branch _ after := after

theorem Simplified.refl (valid : Valid P F) : Simplified P F F false :=
  (Contracted.refl valid).simplified valid
    (fun _ _ _ _ _ _ _ _ _ _ _ _ _ effect => effect) (fun _ => rfl) fun changed => by cases changed

theorem Simplified.trans {changed' : Bool} (first : Simplified P F G changed)
    (second : Simplified P G H changed') : Simplified P F H (changed || changed') where
  valid := second.valid
  entryBlock := second.entryBlock.trans first.entryBlock
  blocks := second.blocks.trans first.blocks
  refines {X} globals commutes := by
    have both : Refines X F H fun bb => isPlaced G bb && isPlaced H bb :=
      Refines.trans (first.refines globals commutes) (second.refines globals commutes)
    have keep : (fun bb => isPlaced G bb && isPlaced H bb) = isPlaced H := by
      funext bb
      by_cases placed : bb ∈ H.blocks
      · simp [isPlaced, placed, second.blocks.subset placed]
      · simp [isPlaced, placed]
    rwa [keep] at both
  same unchanged := by
    obtain ⟨unchanged, unchanged'⟩ := Bool.or_eq_false_iff.mp unchanged
    rw [second.same unchanged', first.same unchanged]
  smaller isChanged := by
    cases changed with
    | false =>
      rw [← first.same rfl]
      exact second.smaller isChanged
    | true =>
      cases changed' with
      | false =>
        rw [second.same rfl]
        exact first.smaller rfl
      | true => exact (second.smaller rfl).trans (first.smaller rfl)

/-- Branches that become jumps. -/
theorem foldBranches_spec (valid : Valid P F) (settles : Settles P F choice) :
    ∃ G changed, foldBranches P F choice = some (G, changed) ∧ Simplified P F G changed := by
  obtain ⟨found, all⟩ := Lib.mapM_isSome fun bb placed =>
    (editOf_answers valid settles placed).imp fun _ => And.left
  have isEdit : ∀ edit ∈ found.reduceOption, EditOf F choice edit := by
    intro edit member
    obtain ⟨bb, placed, isFound⟩ :=
      Lib.mem_of_mapM all (List.reduceOption_mem_iff.mp member)
    obtain ⟨found', isFound', spec⟩ := editOf_answers valid settles placed
    exact spec edit (Option.some.inj (isFound'.symm.trans isFound))
  obtain ⟨G, run, frame, insts⟩ := applyEdits (P := P) (H := F) found.reduceOption
    (fun edit member => ⟨(isEdit edit member).unit valid, (isEdit edit member).fits valid settles⟩)
    (fun _ => rfl) rfl
  have folded : Folded F G choice := by
    refine ⟨frame, fun x => ?_⟩
    rcases insts x with ⟨edit, member, here⟩ | ⟨-, same⟩
    · exact .inl ⟨edit, isEdit edit member, here⟩
    · exact .inr same
  have contracted := folded.contracted valid settles
  refine ⟨G, !found.reduceOption.isEmpty, by simp [foldBranches, all, run],
    contracted.simplified valid (fun globals commutes => folded.goes valid settles globals commutes)
      (fun none => ?_) (fun some => ?_)⟩
  · have empty : found.reduceOption = [] := by simpa using none
    rw [empty] at run
    exact (Option.some.inj run).symm
  · obtain ⟨edit, edits, isCons⟩ := List.exists_cons_of_ne_nil (l := found.reduceOption)
      (by simpa using some)
    obtain ⟨bb, placed, isTerminator, _, _, _, _, _, _, before, -⟩ := isEdit edit (by simp [isCons])
    refine contracted.size_lt_of_branch placed rfl ?_ ?_
    · simp [isBranch, isTerminator, FunctionData.kind, before]
    · rcases insts edit.branch with ⟨edit', -, same, after⟩ | ⟨notEdited, -⟩
      · exact folded.not_isBranch edit' (same ▸ isTerminator) (same ▸ after)
      · exact absurd rfl (notEdited edit (by simp [isCons]))

end Fold

end AnonCompiler.Opt.SimplifyCfg
