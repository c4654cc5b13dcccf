import AnonCompiler.Lib.Chains
import AnonCompiler.Opt.EdgeRewriter
import AnonCompiler.Opt.InstEquiv

/-!
# Leaving out blocks that only jump on

A block without parameters that holds nothing but a jump without arguments can be left
out when the terminators that name it go straight to where it leads.  A terminator may
also give up some of its edges, as long as it still goes where it went.

The function without the blocks is as well-formed as before, and its runs are those of
the function with them, but for the visits of the blocks that are left out.
-/

set_option autoImplicit false

namespace AnonCompiler.Opt.SimplifyCfg

open Ir Lib.Chains

/-- Jumps and branches. -/
def goesOn : InstKind → Bool
  | .jump .. | .branch .. => true
  | _ => false

/-- What is taken for granted of a function, and holds again of the simplified one. -/
structure Valid (P : Program) (F : FunctionData) : Prop where
  wellFormed : F.WellFormed
  typed : F.WellTyped P
  ssa : F.Ssa
  shaped : F.Shaped P
  terminated : F.Terminated
  operands : InstEquiv.OperandsKnown P F

/-- The terminator of the block is a branch. -/
def isBranch (F : FunctionData) (bb : BasicBlock) : Bool :=
  match (F.terminator bb).bind F.kind with
  | some (.branch ..) => true
  | _ => false

/-- A block with a next one only jumps there, and `onward` is where the jumps end. -/
structure Detours (F : FunctionData) (next : BasicBlock → Option BasicBlock)
    (onward : BasicBlock → BasicBlock) : Prop where
  leftOut : ∀ {bb t}, next bb = some t → F.entryBlock ≠ some bb ∧ F.blockParams bb = [] ∧
    ∃ inst, F.blockInsts bb = some [inst] ∧ F.kind inst = some (.jump t [])
  leads : ∀ bb, Leads next bb (onward bb)

/-- `F'` is `F` without the blocks that only jump on.  Their terminators are gone, and the
other terminators go to where the jumps end. -/
structure Contracted (F F' : FunctionData) (next : BasicBlock → Option BasicBlock)
    (onward : BasicBlock → BasicBlock) : Prop extends Detours F next onward where
  layout : F'.layout = F.layout.filter fun entry => (next entry.1).isNone
  params : F'.params = F.params
  blockParams : F'.blockParams = F.blockParams
  nextInst : F'.nextInst = F.nextInst
  nextBlock : F'.nextBlock = F.nextBlock
  insts : ∀ x, F'.insts x = F.insts x ∨ ∃ data, F.insts x = some data ∧ goesOn data.kind = true ∧
    ∀ {data'}, F'.insts x = some data' → data'.ty = data.ty ∧ goesOn data'.kind = true ∧
      data'.kind.instUsage ⊆ data.kind.instUsage
  kept : ∀ {bb insts}, next bb = none → F.blockInsts bb = some insts →
    ∀ x ∈ insts, F'.insts x ≠ none
  edge : ∀ {bb e'}, next bb = none → e' ∈ F'.outgoingEdges bb →
    ∃ e ∈ F.outgoingEdges bb, e.args = e'.args ∧ e'.target = onward e.target
  branch : ∀ {bb}, next bb = none → isBranch F' bb = true → isBranch F bb = true

theorem isTerminator_of_goesOn {kind : InstKind} (h : goesOn kind = true) :
    kind.isTerminator = true := by
  cases kind <;> first | rfl | cases h

theorem isConst_of_goesOn {kind : InstKind} (h : goesOn kind = true) :
    Ctx.isConst kind = false := by
  cases kind <;> first | rfl | cases h

section Detours

variable {P : Program} {F : FunctionData} {next : BasicBlock → Option BasicBlock}
  {onward : BasicBlock → BasicBlock} {bb t : BasicBlock} (h : Detours F next onward)

include h

theorem Detours.onward_eq (isKept : next bb = none) : onward bb = bb :=
  (h.leads bb).unique (.out isKept)

theorem Detours.next_onward (bb : BasicBlock) : next (onward bb) = none := (h.leads bb).ends

theorem Detours.onward_next (isLeft : next bb = some t) : onward bb = onward t :=
  ((leads_step isLeft).mp (h.leads bb)).unique (h.leads t)

/-- Where a block that is left out goes. -/
theorem Detours.leaves_next (isLeft : next bb = some t) :
    ∃ inst, F.blockInsts bb = some [inst] ∧ F.kind inst = some (.jump t []) ∧
      (⟨bb, inst, .jump, t, []⟩ : LogicalEdge) ∈ F.outgoingEdges bb := by
  obtain ⟨-, -, inst, block, isJump⟩ := h.leftOut isLeft
  refine ⟨inst, block, isJump, ?_⟩
  simp [FunctionData.outgoingEdges, FunctionData.terminator, block, isJump]

/-- What a block that is left out leads to has no parameters. -/
theorem Detours.blockParams_onward (shaped : F.Shaped P) (isLeft : next bb = some t) :
    F.blockParams (onward bb) = [] := by
  have chain : ∀ {bb t}, Leads next bb t → F.blockParams bb = [] → F.blockParams t = [] := by
    intro bb t leads
    induction leads with
    | out => exact id
    | @step b c t isNext _ ih =>
      intro _
      obtain ⟨_, -, -, leaves⟩ := h.leaves_next isNext
      exact ih (List.map_eq_nil_iff.mp (shaped.edge leaves).symm)
  exact chain (h.leads bb) (h.leftOut isLeft).2.1

/-- Arguments that fit a block fit where it leads to. -/
theorem Detours.types_onward (shaped : F.Shaped P) (bb : BasicBlock) :
    (F.blockParams (onward bb)).map (P.typeOf F) = (F.blockParams bb).map (P.typeOf F) := by
  cases isNext : next bb with
  | none => rw [h.onward_eq isNext]
  | some t => rw [h.blockParams_onward shaped isNext, (h.leftOut isNext).2.1]

theorem Detours.onward_mem (terminated : F.Terminated) (placed : bb ∈ F.blocks) :
    onward bb ∈ F.blocks := by
  have chain : ∀ {bb t}, Leads next bb t → bb ∈ F.blocks → t ∈ F.blocks := by
    intro bb t leads
    induction leads with
    | out => exact id
    | @step b c t isNext _ ih =>
      intro placed
      obtain ⟨_, -, -, leaves⟩ := h.leaves_next isNext
      exact ih (terminated.targets b placed _ leaves)
  exact chain (h.leads bb) placed

/-- The chain from a block passes blocks without instructions of interest. -/
theorem Detours.missing_onward {x : Inst}
    (noTerminator : ∀ data, F.insts x = some data → goesOn data.kind = false)
    (missing : F.Missing x bb) (notParam : x ∉ F.blockParams (onward bb)) :
    F.Missing x (onward bb) := by
  have chain : ∀ {bb t}, Leads next bb t → F.Missing x bb → x ∉ F.blockParams t →
      F.Missing x t := by
    intro bb t leads missing notParam
    induction leads with
    | out => exact missing
    | @step b c t isNext later ih =>
      refine ih ?_ notParam
      obtain ⟨inst, block, isJump, leaves⟩ := h.leaves_next isNext
      obtain ⟨data, found, isKind⟩ := Option.map_eq_some_iff.mp isJump
      refine .edge missing block (fun isInst => ?_) leaves ?_
      · obtain rfl := List.mem_singleton.mp isInst
        have stays := noTerminator data found
        rw [isKind] at stays
        cases stays
      · cases later with
        | out => exact notParam
        | step isNext' _ =>
          rw [(h.leftOut isNext').2.1]
          exact List.not_mem_nil
  exact chain (h.leads bb) missing notParam

end Detours

def weight (F : FunctionData) (bb : BasicBlock) : Nat := if isBranch F bb then 2 else 1

/-- The number of blocks, where a block that ends with a branch counts twice. -/
def size (F : FunctionData) : Nat := (F.blocks.map (weight F)).sum

/-- What is left of the weight of a block. -/
def weightAfter (F' : FunctionData) (next : BasicBlock → Option BasicBlock)
    (bb : BasicBlock) : Nat :=
  if (next bb).isNone then weight F' bb else 0

namespace Contracted

variable {P : Program} {F F' : FunctionData} {next : BasicBlock → Option BasicBlock}
  {onward : BasicBlock → BasicBlock} {bb : BasicBlock} {x inst : Inst} {data : InstData}

section Layout

variable (h : Contracted F F' next onward)

include h

theorem blocks : F'.blocks = F.blocks.filter fun bb => (next bb).isNone := by
  rw [FunctionData.blocks, FunctionData.blocks, h.layout, List.filter_map]
  rfl

theorem mem_blocks : bb ∈ F'.blocks ↔ bb ∈ F.blocks ∧ next bb = none := by
  rw [h.blocks, List.mem_filter, Option.isNone_iff_eq_none]

theorem blockInsts (isKept : next bb = none) : F'.blockInsts bb = F.blockInsts bb := by
  rw [FunctionData.blockInsts, FunctionData.blockInsts, h.layout,
    lookup_filter_key (fun bb => (next bb).isNone), isKept]
  rfl

/-- A block that is still there has its instructions. -/
theorem blockInsts_of_some {insts : List Inst} (block : F'.blockInsts bb = some insts) :
    next bb = none ∧ F.blockInsts bb = some insts := by
  have isKept := (h.mem_blocks.mp (FunctionData.mem_blocks block)).2
  exact ⟨isKept, by rwa [h.blockInsts isKept] at block⟩

theorem layoutInsts_sublist : F'.layoutInsts.Sublist F.layoutInsts := by
  rw [FunctionData.layoutInsts, FunctionData.layoutInsts, h.layout]
  exact (List.filter_sublist ..).flatMap Prod.snd

theorem present (wellFormed : F.WellFormed) (laidOut : x ∈ F'.layoutInsts) : F'.insts x ≠ none := by
  obtain ⟨⟨bb, insts⟩, member, inside⟩ := List.mem_flatMap.mp laidOut
  rw [h.layout, List.mem_filter, Option.isNone_iff_eq_none] at member
  exact h.kept member.2 (FunctionData.blockInsts_of_mem wellFormed.blocks_nodup member.1) x inside

theorem entryBlock : F'.entryBlock = F.entryBlock := by
  have notLeft : ∀ {bb}, F.entryBlock = some bb → next bb = none := by
    intro bb isEntry
    by_contra isLeft
    obtain ⟨t, isNext⟩ := Option.ne_none_iff_exists'.mp isLeft
    exact (h.leftOut isNext).1 isEntry
  unfold FunctionData.entryBlock at *
  rw [h.layout]
  cases layout : F.layout with
  | nil => rfl
  | cons entry rest =>
    rw [layout] at notLeft
    rw [List.filter_cons, notLeft rfl]
    rfl

theorem terminator (isKept : next bb = none) : F'.terminator bb = F.terminator bb := by
  rw [FunctionData.terminator, FunctionData.terminator, h.blockInsts isKept]

/-- What is there has been there. -/
theorem insts_of_some {data' : InstData} (found : F'.insts x = some data') :
    F.insts x = some data' ∨ ∃ data, F.insts x = some data ∧ goesOn data.kind = true ∧
      data'.ty = data.ty ∧ goesOn data'.kind = true ∧
        data'.kind.instUsage ⊆ data.kind.instUsage := by
  rcases h.insts x with same | ⟨data, before, isGoing, after⟩
  · exact .inl (same ▸ found)
  · obtain ⟨ty, isGoing', uses⟩ := after found
    exact .inr ⟨data, before, isGoing, ty, isGoing', uses⟩

/-- Only jumps and branches change. -/
theorem insts_eq (found : F.insts x = some data) (stays : goesOn data.kind = false) :
    F'.insts x = some data := by
  rcases h.insts x with same | ⟨data', before, isGoing, -⟩
  · rw [same, found]
  · cases found.symm.trans before
    exact absurd (stays.symm.trans isGoing) Bool.false_ne_true

theorem instData_eq (found : P.instData F x = some data)
    (noTerminator : data.kind.isTerminator = false) : P.instData F' x = some data := by
  unfold Program.instData at *
  split at found
  · next isGlobal => rwa [if_pos isGlobal]
  · next isLocal =>
      rw [if_neg isLocal]
      refine h.insts_eq found ?_
      by_contra isGoing
      exact Bool.false_ne_true
        (noTerminator.symm.trans (isTerminator_of_goesOn (Bool.eq_true_of_not_eq_false isGoing)))

/-- What a function sees has been seen before, but for terminators. -/
theorem instData_of_some {data' : InstData} (found : P.instData F' x = some data') :
    P.instData F x = some data' ∨ ∃ data, P.instData F x = some data ∧ goesOn data.kind = true ∧
      data'.ty = data.ty ∧ goesOn data'.kind = true ∧
        data'.kind.instUsage ⊆ data.kind.instUsage := by
  unfold Program.instData at *
  split at found
  · next isGlobal =>
      rw [if_pos isGlobal]
      exact .inl found
  · next isLocal =>
      rw [if_neg isLocal]
      exact h.insts_of_some found

section

variable (operands : InstEquiv.OperandsKnown P F) (found : P.instData F inst = some data)
  (used : x ∈ data.kind.instUsage)
include operands found used

theorem operand : ∃ operand, P.instData F x = some operand ∧
      P.instData F' x = some operand ∧ operand.kind.isTerminator = false := by
  obtain ⟨operand, isOperand, noTerminator⟩ := operands found used
  exact ⟨operand, isOperand, h.instData_eq isOperand noTerminator, noTerminator⟩

theorem typeOf_operand : P.typeOf F' x = P.typeOf F x := by
  obtain ⟨operand, isOperand, isOperand', -⟩ := h.operand operands found used
  rw [Program.typeOf, Program.typeOf, isOperand, isOperand']

end

theorem param_eq (wellFormed : F.WellFormed) (isParam : x ∈ F.blockParams bb) :
    ∃ data index, F'.insts x = some data ∧ F.insts x = some data ∧
      data.kind = .blockArgRef index := by
  obtain ⟨data, index, found, isRef⟩ := wellFormed.blockParam isParam
  exact ⟨data, index, h.insts_eq found (by rw [isRef]; rfl), found, isRef⟩

theorem missing (noTerminator : ∀ data, F.insts x = some data → goesOn data.kind = false)
    (missing : F'.Missing x bb) : F.Missing x bb := by
  induction missing with
  | entry isEntry notParam =>
    rw [h.entryBlock] at isEntry
    rw [h.blockParams] at notParam
    exact .entry isEntry notParam
  | @edge bb insts e' _ block notHere leaves notParam ih =>
    obtain ⟨isKept, block⟩ := h.blockInsts_of_some block
    obtain ⟨e, leaves', -, isTarget⟩ := h.edge isKept leaves
    rw [isTarget] at notParam ⊢
    rw [h.blockParams] at notParam
    refine h.missing_onward noTerminator (.edge ih block notHere leaves' ?_) notParam
    cases isNext : next e.target with
    | none => rwa [h.onward_eq isNext] at notParam
    | some t =>
      rw [(h.leftOut isNext).2.1]
      exact List.not_mem_nil

end Layout

/-! ## The function shrinks -/

section Size

variable (h : Contracted F F' next onward)

include h

theorem size_eq : size F' = (F.blocks.map (weightAfter F' next)).sum := by
  rw [size, h.blocks]
  induction F.blocks with
  | nil => rfl
  | cons bb blocks ih =>
    rw [List.filter_cons, List.map_cons, List.sum_cons, ← ih, weightAfter]
    split
    · rw [List.map_cons, List.sum_cons]
    · rw [Nat.zero_add]

theorem weightAfter_le (bb : BasicBlock) : weightAfter F' next bb ≤ weight F bb := by
  unfold weightAfter weight
  cases isNext : next bb with
  | some t => simp
  | none =>
    cases after : isBranch F' bb with
    | true => simp [h.branch isNext after]
    | false =>
      simp only [Option.isNone_none, if_true, Bool.false_eq_true, if_false]
      split <;> decide

theorem size_lt (placed : bb ∈ F.blocks) (less : weightAfter F' next bb < weight F bb) :
    size F' < size F := by
  rw [h.size_eq]
  exact List.sum_lt_sum _ _ (fun bb _ => h.weightAfter_le bb) ⟨bb, placed, less⟩

theorem size_lt_of_left {t : BasicBlock} (placed : bb ∈ F.blocks) (isLeft : next bb = some t) :
    size F' < size F := by
  refine h.size_lt placed ?_
  simp only [weightAfter, isLeft, Option.isNone_some, Bool.false_eq_true, if_false, weight]
  split <;> decide

theorem size_lt_of_branch (placed : bb ∈ F.blocks) (isKept : next bb = none)
    (before : isBranch F bb = true) (after : isBranch F' bb = false) : size F' < size F := by
  refine h.size_lt placed ?_
  simp [weightAfter, isKept, weight, before, after]

end Size

/-! ## The function stays valid -/

section Valid

variable (h : Contracted F F' next onward) (valid : Valid P F)

include h valid

theorem wellFormed : F'.WellFormed where
  inst_lt {x} present := by
    obtain ⟨data', found⟩ := Option.ne_none_iff_exists'.mp present
    rw [h.nextInst]
    refine valid.wellFormed.inst_lt ?_
    rcases h.insts_of_some found with before | ⟨data, before, -⟩ <;> simp [before]
  local_ids := h.nextInst ▸ valid.wellFormed.local_ids
  block_lt placed := h.nextBlock ▸ valid.wellFormed.block_lt (h.mem_blocks.mp placed).1
  blocks_nodup := h.blocks ▸ valid.wellFormed.blocks_nodup.filter _
  layout_nodup := valid.wellFormed.layout_nodup.sublist h.layoutInsts_sublist
  laidOut {x} laidOut := by
    obtain ⟨data', found⟩ := Option.ne_none_iff_exists'.mp (h.present valid.wellFormed laidOut)
    refine ⟨data', found, fun index isRef => ?_⟩
    rcases h.insts_of_some found with before | ⟨-, -, -, -, isGoing, -⟩
    · obtain ⟨data, found', notRef⟩ :=
        valid.wellFormed.laidOut (h.layoutInsts_sublist.subset laidOut)
      cases before.symm.trans found'
      exact notRef index isRef
    · rw [isRef] at isGoing
      cases isGoing
  terminator_last block found isTerminator := by
    obtain ⟨-, block⟩ := h.blockInsts_of_some block
    rcases h.insts_of_some found with before | ⟨data, before, isGoing, -⟩
    · exact valid.wellFormed.terminator_last block before isTerminator
    · exact valid.wellFormed.terminator_last block before (isTerminator_of_goesOn isGoing)
  ordered block found used := by
    obtain ⟨-, block⟩ := h.blockInsts_of_some block
    rcases h.insts_of_some found with before | ⟨data, before, -, -, -, uses⟩
    · exact valid.wellFormed.ordered block before used
    · exact valid.wellFormed.ordered block before (uses used)
  blockParam isParam := by
    rw [h.blockParams] at isParam
    obtain ⟨data, index, found, -, isRef⟩ := h.param_eq valid.wellFormed isParam
    exact ⟨data, index, found, isRef⟩
  blockParams_nodup bb := h.blockParams ▸ valid.wellFormed.blockParams_nodup bb
  blockParams_unique isParam isParam' := by
    rw [h.blockParams] at isParam isParam'
    exact valid.wellFormed.blockParams_unique isParam isParam'
  params_entry isEntry := by
    rw [h.entryBlock] at isEntry
    rw [h.params, h.blockParams]
    exact valid.wellFormed.params_entry isEntry

theorem typed : F'.WellTyped P where
  integer {x ty value} found := by
    rcases h.insts_of_some found with before | ⟨-, -, -, -, isGoing, -⟩
    · exact valid.typed.integer before
    · cases isGoing
  binary {x ty op lhs rhs} found := by
    rcases h.insts_of_some found with before | ⟨-, -, -, -, isGoing, -⟩
    · have isData := valid.wellFormed.instData_eq (P := P) before
      rw [h.typeOf_operand valid.operands isData (x := lhs) (by simp [InstKind.instUsage]),
        h.typeOf_operand valid.operands isData (x := rhs) (by simp [InstKind.instUsage])]
      exact valid.typed.binary before
    · cases isGoing
  call {x ty callee args G} found isCallee := by
    rcases h.insts_of_some found with before | ⟨-, -, -, -, isGoing, -⟩
    · exact valid.typed.call before isCallee
    · cases isGoing
  terminator found isTerminator := by
    rcases h.insts_of_some found with before | ⟨data, before, isGoing, ty, -⟩
    · exact valid.typed.terminator before isTerminator
    · exact ty.trans (valid.typed.terminator before (isTerminator_of_goesOn isGoing))

theorem ssa : F'.Ssa where
  executable laidOut found := by
    rcases h.insts_of_some found with before | ⟨-, -, -, -, isGoing, -⟩
    · exact valid.ssa.executable (h.layoutInsts_sublist.subset laidOut) before
    · exact isConst_of_goesOn isGoing
  uses {bb pre inst post data' x} block found used := by
    obtain ⟨isKept, block⟩ := h.blockInsts_of_some block
    -- the instruction before, with at least these operands
    obtain ⟨data, before, used⟩ : ∃ data, F.insts inst = some data ∧ x ∈ data.kind.instUsage := by
      rcases h.insts_of_some found with before | ⟨data, before, -, -, -, uses⟩
      · exact ⟨data', before, used⟩
      · exact ⟨data, before, uses used⟩
    obtain ⟨operand, isOperand, -, noTerminator⟩ :=
      h.operand valid.operands (valid.wellFormed.instData_eq before) used
    have stays : ∀ data, F.insts x = some data → goesOn data.kind = false := by
      intro data found
      cases (valid.wellFormed.instData_eq found).symm.trans isOperand
      by_contra isGoing
      exact Bool.false_ne_true
        (noTerminator.symm.trans (isTerminator_of_goesOn (Bool.eq_true_of_not_eq_false isGoing)))
    rcases valid.ssa.uses block before used with (isGlobal | ⟨data, found', isConst⟩) | early |
      available
    · exact .inl (.inl isGlobal)
    · exact .inl (.inr ⟨data, h.insts_eq found' (stays data found'), isConst⟩)
    · exact .inr (.inl early)
    · exact .inr (.inr fun missing => available (h.missing stays missing))

theorem shaped : F'.Shaped P where
  vector {x data elem lanes} found isVector := by
    rcases h.instData_of_some found with before | ⟨data, before, -, ty, -⟩
    · exact valid.shaped.vector before isVector
    · exact valid.shaped.vector before (ty ▸ isVector)
  integer {x ty value} found := by
    rcases h.instData_of_some found with before | ⟨-, -, -, -, isGoing, -⟩
    · exact valid.shaped.integer before
    · cases isGoing
  float {x ty bits} found := by
    rcases h.instData_of_some found with before | ⟨-, -, -, -, isGoing, -⟩
    · exact valid.shaped.float before
    · cases isGoing
  address {x data} found isAddress := by
    rcases h.instData_of_some found with before | ⟨-, -, -, -, isGoing, -⟩
    · exact valid.shaped.address before isAddress
    · rcases isAddress with isKind | ⟨init, isKind⟩ <;>
      · rw [isKind] at isGoing
        cases isGoing
  aggregate {x ty value} found := by
    rcases h.instData_of_some found with before | ⟨-, -, -, -, isGoing, -⟩
    · obtain ⟨base, isArray, elements⟩ := valid.shaped.aggregate before
      refine ⟨base, isArray, fun elem member => ?_⟩
      rw [h.typeOf_operand valid.operands before member]
      exact elements elem member
    · cases isGoing
  edge {bb e'} leaves := by
    obtain ⟨insts, block⟩ := FunctionData.exists_of_edge leaves
    obtain ⟨isKept, block⟩ := h.blockInsts_of_some block
    obtain ⟨e, leaves', sameArgs, isTarget⟩ := h.edge isKept leaves
    have types := valid.shaped.edge leaves'
    rw [h.blockParams, isTarget, ← sameArgs]
    -- operands and parameters have kept their types
    have isUsed : ∀ x ∈ e.args, P.typeOf F' x = P.typeOf F x := by
      intro x used
      obtain ⟨kind, isKind, used⟩ : ∃ kind, F.kind e.terminator = some kind ∧
          x ∈ kind.instUsage := by
        rcases kind_of_edge leaves' with
          ⟨-, isKind⟩ | ⟨_, _, _, -, isKind⟩ | ⟨_, _, _, -, isKind⟩ <;>
          exact ⟨_, isKind, by simp [InstKind.instUsage, used]⟩
      obtain ⟨data, found, rfl⟩ := Option.map_eq_some_iff.mp isKind
      exact h.typeOf_operand valid.operands (valid.wellFormed.instData_eq found) used
    have isParam : ∀ x ∈ F.blockParams (onward e.target), P.typeOf F' x = P.typeOf F x := by
      intro x isParam
      obtain ⟨data, index, found', found, -⟩ := h.param_eq valid.wellFormed isParam
      rw [Program.typeOf, Program.typeOf, valid.wellFormed.instData_eq found,
        (h.wellFormed valid).instData_eq found']
    rw [List.map_congr_left isUsed, List.map_congr_left isParam]
    rw [h.types_onward valid.shaped, types]

theorem terminated : F'.Terminated where
  terminator bb placed := by
    obtain ⟨placed, isKept⟩ := h.mem_blocks.mp placed
    obtain ⟨inst, kind, isLast, isKind, isTerminator⟩ := valid.terminated.terminator bb placed
    obtain ⟨insts, block, inside⟩ := Option.bind_eq_some_iff.mp isLast
    obtain ⟨data', found⟩ := Option.ne_none_iff_exists'.mp
      (h.kept isKept block inst (List.mem_of_getLast? inside))
    have isKind' : F'.kind inst = some data'.kind := by
      rw [FunctionData.kind, found]
      rfl
    refine ⟨inst, data'.kind, by rw [h.terminator isKept, isLast], isKind', ?_⟩
    rcases h.insts_of_some found with before | ⟨-, -, -, -, isGoing, -⟩
    · rw [FunctionData.kind, before] at isKind
      cases isKind
      exact isTerminator
    · exact isTerminator_of_goesOn isGoing
  targets bb placed e' leaves := by
    obtain ⟨placed, isKept⟩ := h.mem_blocks.mp placed
    obtain ⟨e, leaves', -, isTarget⟩ := h.edge isKept leaves
    rw [isTarget]
    exact h.mem_blocks.mpr
      ⟨h.onward_mem valid.terminated (valid.terminated.targets bb placed e leaves'),
      h.next_onward _⟩

theorem operandsKnown : InstEquiv.OperandsKnown P F' := by
  intro inst data' x found used
  rcases h.instData_of_some found with before | ⟨data, before, -, -, -, uses⟩
  · obtain ⟨operand, -, isOperand, noTerminator⟩ := h.operand valid.operands before used
    exact ⟨operand, isOperand, noTerminator⟩
  · obtain ⟨operand, -, isOperand, noTerminator⟩ := h.operand valid.operands before (uses used)
    exact ⟨operand, isOperand, noTerminator⟩

theorem keepsValid : Valid P F' :=
  ⟨h.wellFormed valid, h.typed valid, h.ssa valid, h.shaped valid, h.terminated valid,
    h.operandsKnown valid⟩

end Valid

end Contracted

/-! ## The runs -/

/-- Only the visits of the blocks of the layout are shown. -/
def isPlaced (F : FunctionData) (bb : BasicBlock) : Bool := bb ∈ F.blocks

/-- A terminator of a block that stays goes where it went, or to the end of the chain from
there. -/
def GoesOnward (X : Ctx) (F F' : FunctionData) (next : BasicBlock → Option BasicBlock)
    (onward : BasicBlock → BasicBlock) : Prop :=
  ∀ {a done m inst rest target vals}, a.Consistent X F done → Env.Shaped F a.env →
    a.rest = inst :: rest → next a.block = none → exec X F a m inst = some (.goto target vals) →
      exec X F' a m inst = some (.goto (onward target) vals)

/-- The second function stands where the first one does, or it is about to go where the
first one is on its way to. -/
inductive Follows (X : Ctx) (F F' : FunctionData) (next : BasicBlock → Option BasicBlock)
    (onward : BasicBlock → BasicBlock) : Activation → Activation → Prop where
  | alongside {a : Activation} (running : Running X F a) (isKept : next a.block = none) :
      Follows X F F' next onward a a
  | behind {a a' : Activation} {t : BasicBlock} {inst : Inst} {rest : List Inst}
      (running : Running X F a) (isLeft : next a.block = some t) (func : a'.func = a.func)
      (frame : a'.frame = a.frame) (env : a'.env = a.env) (current : a'.rest = inst :: rest)
      (goes : ∀ m, exec X F' a' m inst = some (.goto (onward a.block) [])) :
      Follows X F F' next onward a a'

section Runs

variable {P : Program} {X : Ctx} {F F' : FunctionData} {next : BasicBlock → Option BasicBlock}
  {onward : BasicBlock → BasicBlock} {a a' b : Activation} {m : Mem} {inst : Inst} {e : Effect}
  {target : BasicBlock} {vals : List Val}
  (h : Contracted F F' next onward) (valid : Valid P F)

include h

variable {t : BasicBlock} {rest : List Inst} {data : InstData}

theorem Contracted.sameConsts : SameConsts F F' := by
  intro x
  rcases h.insts x with same | ⟨data, before, isGoing, after⟩
  · exact .inl same
  · refine .inr ⟨fun data' found => ?_, fun data' found => ?_⟩
    · cases before.symm.trans found
      exact isConst_of_goesOn isGoing
    · exact isConst_of_goesOn (after found).2.1

/-- A block that is left out binds nothing, and goes on. -/
theorem Contracted.enterLeft (isLeft : next target = some t)
    (entered : a.enterBlock F target vals = some b) :
    vals = [] ∧ b.func = a.func ∧ b.frame = a.frame ∧ b.env = a.env ∧ b.block = target := by
  obtain ⟨length, insts, block, rfl⟩ := Activation.enterBlock_eq_some.mp entered
  obtain ⟨-, noParams, -⟩ := h.leftOut isLeft
  rw [noParams, List.length_nil, List.length_eq_zero_iff] at length
  subst length
  rw [noParams]
  exact ⟨rfl, rfl, rfl, rfl, rfl⟩

/-- In a block that is left out only its jump is executed. -/
theorem Contracted.exec_left {done : List Inst} (isLeft : next a.block = some t)
    (place : a.At F done) (current : a.rest = inst :: rest) (effect : exec X F a m inst = some e) :
    e = .goto t [] := by
  obtain ⟨-, -, jump, block, isJump⟩ := h.leftOut isLeft
  have whole := place.placed current
  rw [block, Option.some.injEq] at whole
  obtain rfl : inst = jump := by
    have member : inst ∈ [jump] := by rw [whole]; simp
    exact List.mem_singleton.mp member
  obtain ⟨⟨ty, kind⟩, found, isKind⟩ := Option.map_eq_some_iff.mp isJump
  dsimp only at isKind
  subst isKind
  obtain ⟨vals, operands, rfl⟩ := (exec_jump found).mp effect
  cases operands
  rfl

include valid

theorem Contracted.sameOperand (globals : X.globals = P.globals) {x : Inst}
    (found : F.insts inst = some data) (used : x ∈ data.kind.instUsage) (env : Env) :
    X.SameOperand F F' env env x := by
  obtain ⟨operand, isOperand, isOperand', -⟩ :=
    h.operand valid.operands (valid.wellFormed.instData_eq found) used
  refine h.sameConsts.sameOperand ?_ rfl
  rw [Ctx.instData_eq globals, Ctx.instData_eq globals, isOperand, isOperand']

/-- What is unchanged has the same effect. -/
theorem Contracted.exec_eq (globals : X.globals = P.globals) (found : F.insts inst = some data)
    (found' : F'.insts inst = some data) (effect : exec X F a m inst = some e) :
    exec X F' a m inst = some e := by
  exact exec_congr found found' rfl rfl
    (fun x used => (h.sameOperand valid globals found used a.env).carries) effect

theorem Contracted.bindParams_eq (env : Env) (bb : BasicBlock) (vals : List Val) :
    bindParams F' env (F.blockParams bb) vals = bindParams F env (F.blockParams bb) vals := by
  funext x
  refine bindParams_sameTypes (fun p isParam => ?_) rfl
  obtain ⟨data, index, found', found, -⟩ := h.param_eq valid.wellFormed isParam
  rw [found, found']

theorem Contracted.enterBlock (isKept : next target = none) (func : a'.func = a.func)
    (frame : a'.frame = a.frame) (env : a'.env = a.env)
    (entered : a.enterBlock F target vals = some b) : a'.enterBlock F' target vals = some b := by
  obtain ⟨length, insts, block, rfl⟩ := Activation.enterBlock_eq_some.mp entered
  refine Activation.enterBlock_eq_some.mpr ⟨by rwa [h.blockParams], insts, ?_, ?_⟩
  · rw [h.blockInsts isKept, block]
  · rw [h.blockParams, h.bindParams_eq valid, func, frame, env]

/-- What is executed without a transfer of control is there as it was. -/
theorem Contracted.exec_kept (globals : X.globals = P.globals)
    (effect : exec X F a m inst = some e) (noGoto : ∀ target vals, e ≠ .goto target vals) :
    exec X F' a m inst = some e := by
  obtain ⟨data, found⟩ := exec_isSome effect
  refine h.exec_eq valid globals found (h.insts_eq found ?_) effect
  by_contra isGoing
  obtain ⟨ty, kind⟩ := data
  cases kind with
  | jump target args =>
    obtain ⟨vals, -, rfl⟩ := (exec_jump found).mp effect
    exact noGoto _ _ rfl
  | branch cond t tArgs f fArgs =>
    obtain ⟨c, vals, -, -, rfl⟩ := (exec_branch found).mp effect
    exact noGoto _ _ rfl
  | _ => exact isGoing rfl

/-- A transfer of control is followed from wherever the second function stands. -/
theorem Contracted.follows_goto (running : Running X F b) (func : a'.func = a.func)
    (frame : a'.frame = a.frame) (env : a'.env = a.env) (current : a'.rest = inst :: rest)
    (goes : ∀ m, exec X F' a' m inst = some (.goto (onward target) vals))
    (entered : a.enterBlock F target vals = some b) :
    ∃ o', OpenRun X F' a' m (shownBy (isPlaced F') [.visit target vals]) o' ∧
      Outcome.Related (Follows X F F' next onward) (.running b m) o' := by
  obtain ⟨isBlock, placed⟩ : b.block = target ∧ target ∈ F.blocks := by
    obtain ⟨-, insts, block, rfl⟩ := Activation.enterBlock_eq_some.mp entered
    exact ⟨rfl, FunctionData.mem_blocks block⟩
  cases isNext : next target with
  | none =>
    have goesThere := goes m
    rw [h.onward_eq isNext] at goesThere
    refine ⟨.running b m, ?_, .running m (.alongside running (isBlock ▸ isNext))⟩
    have shown : shownBy (isPlaced F') [.visit target vals] = [.visit target vals] := by
      simp [shownBy, isPlaced, h.mem_blocks, placed, isNext]
    rw [shown]
    exact .single (.goto current goesThere (h.enterBlock valid isNext func frame env entered))
  | some t =>
    obtain ⟨rfl, func', frame', env', -⟩ := h.enterLeft isNext entered
    refine ⟨.running a' m, ?_, .running m ?_⟩
    · have shown : shownBy (isPlaced F') [.visit target []] = [] := by
        simp [shownBy, isPlaced, h.mem_blocks, isNext]
      rw [shown]
      exact .refl a' m
    · refine .behind running (isBlock ▸ isNext) (func.trans func'.symm)
        (frame.trans frame'.symm) (env.trans env'.symm) current ?_
      rw [isBlock]
      exact goes

/-- Every step is followed. -/
theorem Contracted.follows (globals : X.globals = P.globals)
    (goes : GoesOnward X F F' next onward) :
    OpenSim X F F' (isPlaced F') (Follows X F F' next onward) := by
  intro a a' m seen o follows step
  cases follows with
  | alongside running isKept =>
    obtain ⟨⟨done, place⟩, shaped⟩ := running
    have running : Running X F a := ⟨⟨done, place⟩, shaped⟩
    cases step with
    | value current effect =>
      have later := running.openStep valid.wellFormed valid.ssa valid.shaped
        (.value (m := m) current effect)
      have effect' := h.exec_kept valid globals effect fun _ _ => Effect.noConfusion
      exact ⟨_, .single (.value current effect'), .running m (.alongside later isKept)⟩
    | write current effect =>
      have later := running.openStep valid.wellFormed valid.ssa valid.shaped
        (.write current effect)
      have effect' := h.exec_kept valid globals effect fun _ _ => Effect.noConfusion
      exact ⟨_, .single (.write current effect'), .running _ (.alongside later isKept)⟩
    | goto current effect entered =>
      have later := running.openStep valid.wellFormed valid.ssa valid.shaped
        (.goto current effect entered)
      exact h.follows_goto valid later rfl rfl rfl current
        (fun m' => goes place shaped current isKept (exec_goto_mem effect)) entered
    | @call inst rest callee args value b m' current effect resumed =>
      have later := running.openStep valid.wellFormed valid.ssa valid.shaped
        (.call m' current effect resumed)
      have effect' := h.exec_kept valid globals effect fun _ _ => Effect.noConfusion
      obtain ⟨inst', rest', data, current', found, rfl⟩ := Activation.resume_eq_some.mp resumed
      obtain ⟨isInst, isRest⟩ := List.cons.inj (current.symm.trans current')
      subst isInst isRest
      have found' : F'.insts inst = some data := by
        refine h.insts_eq found ?_
        cases executes_of_exec found effect with
        | call isCall =>
          rw [isCall]
          rfl
      exact ⟨_, .single (.call m' current effect'
        (Activation.resume_eq_some.mpr ⟨_, _, _, current, found', rfl⟩)),
        .running _ (.alongside later isKept)⟩
    | tailCall current effect =>
      have effect' := h.exec_kept valid globals effect fun _ _ => Effect.noConfusion
      exact ⟨_, .single (.tailCall current effect'), .done⟩
    | ret current effect =>
      have effect' := h.exec_kept valid globals effect fun _ _ => Effect.noConfusion
      exact ⟨_, .single (.ret current effect'), .done⟩
  | behind running isLeft func frame env current goes' =>
    obtain ⟨⟨done, place⟩, shaped⟩ := running
    have running : Running X F a := ⟨⟨done, place⟩, shaped⟩
    have only : ∀ {inst rest e}, a.rest = inst :: rest → exec X F a m inst = some e →
        e = .goto _ [] :=
      fun current effect => h.exec_left isLeft place.toAt current effect
    cases step with
    | value current' effect => exact Effect.noConfusion (only current' effect)
    | write current' effect => exact Effect.noConfusion (only current' effect)
    | call _ current' effect => exact Effect.noConfusion (only current' effect)
    | tailCall current' effect => exact Effect.noConfusion (only current' effect)
    | ret current' effect => exact Effect.noConfusion (only current' effect)
    | goto current' effect entered =>
      have later := running.openStep valid.wellFormed valid.ssa valid.shaped
        (.goto current' effect entered)
      obtain ⟨rfl, rfl⟩ := Effect.goto.inj (only current' effect)
      rw [h.onward_next isLeft] at goes'
      exact h.follows_goto valid later func frame env current goes' entered

theorem Contracted.refines (globals : X.globals = P.globals)
    (goes : GoesOnward X F F' next onward) : Refines X F F' (isPlaced F') := by
  refine OpenSim.refines (h.follows valid globals goes) fun {func frame args a} started => ?_
  refine ⟨a, ?_, .alongside (.start valid.wellFormed started) ?_⟩
  · obtain ⟨entry, insts, isEntry, length, block, rfl⟩ := Activation.start_eq_some.mp started
    have isKept : next entry = none := by
      by_contra isLeft
      obtain ⟨t, isNext⟩ := Option.ne_none_iff_exists'.mp isLeft
      exact (h.leftOut isNext).1 isEntry
    refine Activation.start_eq_some.mpr ⟨entry, insts, h.entryBlock ▸ isEntry,
      by rwa [h.blockParams], by rw [h.blockInsts isKept, block], ?_⟩
    rw [h.blockParams, h.bindParams_eq valid]
  · obtain ⟨entry, insts, isEntry, -, -, rfl⟩ := Activation.start_eq_some.mp started
    by_contra isLeft
    obtain ⟨t, isNext⟩ := Option.ne_none_iff_exists'.mp isLeft
    exact (h.leftOut isNext).1 isEntry

end Runs

end AnonCompiler.Opt.SimplifyCfg
