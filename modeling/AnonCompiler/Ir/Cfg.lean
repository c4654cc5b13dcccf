import AnonCompiler.Lib.Fixpoint
import AnonCompiler.Ir.WellFormed
import AnonCompiler.Ir.ProgramRun

/-!
# The control-flow graph

Blocks are connected by logical edges, one for each arm of a terminator, as in
`opt/utils/logical_edge.rs`: a branch with both arms to one block has two edges
to it.  The graph holds the blocks reachable from the entry, and the incoming
edges of a block are those of reachable sources.

An activation always stands in a reachable block, at a suffix of its
instructions, and moves along an edge to the next one.
-/

set_option autoImplicit false

namespace AnonCompiler.Ir

inductive LogicalEdgeArm where
  | jump | onTrue | onFalse
deriving DecidableEq, Repr

/-- One arm of a terminator, with the target and the arguments it names. -/
structure LogicalEdge where
  source : BasicBlock
  terminator : Inst
  arm : LogicalEdgeArm
  target : BasicBlock
  args : List Inst
deriving DecidableEq, Repr

namespace FunctionData

/-- The last instruction of a block. -/
def terminator (F : FunctionData) (bb : BasicBlock) : Option Inst :=
  (F.blockInsts bb).bind List.getLast?

def outgoingEdges (F : FunctionData) (source : BasicBlock) : List LogicalEdge :=
  match F.terminator source with
  | none => []
  | some terminator =>
    match F.kind terminator with
    | some (.jump target args) => [⟨source, terminator, .jump, target, args⟩]
    | some (.branch _ tTarget tArgs fTarget fArgs) =>
      [⟨source, terminator, .onTrue, tTarget, tArgs⟩,
        ⟨source, terminator, .onFalse, fTarget, fArgs⟩]
    | _ => []

/-- The targets of the edges that leave a block; a target is a block of the
layout. -/
def successors (F : FunctionData) (bb : BasicBlock) : List BasicBlock :=
  ((F.outgoingEdges bb).map LogicalEdge.target).filter (· ∈ F.blocks)

def reachable (F : FunctionData) : List BasicBlock :=
  (Lib.closure F.successors F.blocks F.entryBlock.toList).dedup

def incomingEdges (F : FunctionData) (target : BasicBlock) : List LogicalEdge :=
  F.reachable.flatMap fun source => (F.outgoingEdges source).filter (·.target = target)

/-- Every block ends with a terminator, and its targets are blocks of the layout. -/
structure Terminated (F : FunctionData) : Prop where
  terminator : ∀ bb ∈ F.blocks, ∃ inst kind, F.terminator bb = some inst ∧ F.kind inst = some kind ∧
    kind.isTerminator = true
  targets : ∀ bb ∈ F.blocks, ∀ edge ∈ F.outgoingEdges bb, edge.target ∈ F.blocks

variable {F : FunctionData} {bb : BasicBlock}

theorem entry_reachable (isEntry : F.entryBlock = some bb) : bb ∈ F.reachable :=
  List.mem_dedup.mpr (Lib.subset_closure (by simp [isEntry]))

theorem reachable_of_edge (reached : bb ∈ F.reachable) {edge : LogicalEdge}
    (leaves : edge ∈ F.outgoingEdges bb) (placed : edge.target ∈ F.blocks) :
    edge.target ∈ F.reachable := by
  have inside : ∀ a, F.successors a ⊆ F.blocks := fun a _ member =>
    of_decide_eq_true (List.mem_filter.mp member).2
  have isSuccessor : edge.target ∈ F.successors bb :=
    List.mem_filter.mpr ⟨List.mem_map.mpr ⟨edge, leaves, rfl⟩, by simpa using placed⟩
  exact List.mem_dedup.mpr (Lib.closure_closed inside (List.mem_dedup.mp reached) isSuccessor)

/-- What holds of the entry and spreads along edges holds of the reachable blocks. -/
theorem reachable_induction {R : BasicBlock → Prop}
    (atEntry : ∀ entry, F.entryBlock = some entry → R entry)
    (spreads : ∀ bb, R bb → ∀ edge ∈ F.outgoingEdges bb, edge.target ∈ F.blocks → R edge.target)
    (reached : bb ∈ F.reachable) : R bb := by
  have all : ∀ b ∈ Lib.closure F.successors F.blocks F.entryBlock.toList, R b := by
    refine Lib.iterate_invariant (Q := fun seen => ∀ b ∈ seen, R b)
      (fun {seen more} holds grown => ?_) _
      (fun b member => atEntry b (by simpa using member))
    obtain ⟨-, rfl⟩ := Lib.grow_eq_some.mp grown
    intro b member
    rcases List.mem_append.mp member with old | new
    · exact holds b old
    · obtain ⟨⟨a, isSeen, isNext⟩, -⟩ := Lib.mem_missing.mp new
      obtain ⟨isTarget, placed⟩ := List.mem_filter.mp isNext
      obtain ⟨edge, leaves, rfl⟩ := List.mem_map.mp isTarget
      exact spreads a (holds a isSeen) edge leaves (of_decide_eq_true placed)
  exact all bb (List.mem_dedup.mp reached)

theorem entry_mem_blocks (isEntry : F.entryBlock = some bb) : bb ∈ F.blocks := by
  obtain ⟨entry, isHead, rfl⟩ := Option.map_eq_some_iff.mp isEntry
  exact List.mem_map_of_mem (List.mem_of_mem_head? isHead)

theorem reachable_subset_blocks : F.reachable ⊆ F.blocks := fun _ reached =>
  reachable_induction (fun _ isEntry => entry_mem_blocks isEntry) (fun _ _ _ _ placed => placed)
    reached

theorem mem_incomingEdges (reached : bb ∈ F.reachable) {edge : LogicalEdge}
    (leaves : edge ∈ F.outgoingEdges bb) : edge ∈ F.incomingEdges edge.target :=
  List.mem_flatMap.mpr ⟨bb, reached, List.mem_filter.mpr ⟨leaves, by simp⟩⟩

theorem mem_blocks {insts : List Inst} (h : F.blockInsts bb = some insts) : bb ∈ F.blocks :=
  List.mem_map.mpr ⟨_, mem_of_blockInsts h, rfl⟩

end FunctionData

/-! ## Where an activation stands -/

/-- A transfer of control inside the function follows an edge of the block, and ends
it. -/
theorem FunctionData.WellFormed.edge_of_goto {F : FunctionData} (wellFormed : F.WellFormed)
    {a : Activation} {done rest : List Inst} {inst : Inst}
    (block : F.blockInsts a.block = some (done ++ inst :: rest)) {X : Ctx} {m : Mem}
    {target : BasicBlock}
    {vals : List Val} (effect : exec X F a m inst = some (.goto target vals)) :
    rest = [] ∧ ∃ edge ∈ F.outgoingEdges a.block, edge.target = target ∧ edge.terminator = inst ∧
      X.operands F a.env edge.args = some vals := by
  obtain ⟨data, found⟩ := exec_isSome effect
  have isLast (isTerminator : data.kind.isTerminator = true) :
      rest = [] ∧ F.terminator a.block = some inst := by
    obtain rfl := wellFormed.terminator_last block found isTerminator
    exact ⟨rfl, by simp [FunctionData.terminator, block]⟩
  have kind : F.kind inst = some data.kind := by simp [FunctionData.kind, found]
  cases executes_of_exec found effect with
  | @jump target args vals isJump operands =>
    obtain ⟨ends, isTerminator⟩ := isLast (by simp [isJump, InstKind.isTerminator])
    refine ⟨ends, ⟨a.block, inst, .jump, target, args⟩, ?_, rfl, rfl, operands⟩
    simp [FunctionData.outgoingEdges, isTerminator, kind, isJump]
  | @branch cond t e tArgs fArgs c vals isBranch decided operands =>
    obtain ⟨ends, isTerminator⟩ := isLast (by simp [isBranch, InstKind.isTerminator])
    have edges : F.outgoingEdges a.block =
        [⟨a.block, inst, .onTrue, t, tArgs⟩, ⟨a.block, inst, .onFalse, e, fArgs⟩] := by
      simp [FunctionData.outgoingEdges, isTerminator, kind, isBranch]
    rw [edges]
    refine ⟨ends, ?_⟩
    by_cases taken : c ≠ 0
    · rw [if_pos taken] at operands ⊢
      exact ⟨⟨a.block, inst, .onTrue, t, tArgs⟩, by simp, rfl, rfl, operands⟩
    · rw [if_neg taken] at operands ⊢
      exact ⟨⟨a.block, inst, .onFalse, e, fArgs⟩, by simp, rfl, rfl, operands⟩

/-- The instructions still to be executed end a reachable block. -/
structure Activation.Placed (F : FunctionData) (a : Activation) : Prop where
  reached : a.block ∈ F.reachable
  suffix : ∃ done, F.blockInsts a.block = some (done ++ a.rest)

namespace Activation.Placed

variable {F : FunctionData} {a a' : Activation} {inst : Inst} {rest : List Inst}

theorem laidOut (placed : a.Placed F) (current : a.rest = inst :: rest) : inst ∈ F.layoutInsts := by
  obtain ⟨done, block⟩ := placed.suffix
  exact FunctionData.mem_layoutInsts block (by simp [current])

theorem next (placed : a.Placed F) (same : a'.block = a.block) (moved : a'.rest = a.rest.tail) :
    a'.Placed F := by
  obtain ⟨done, block⟩ := placed.suffix
  refine ⟨same ▸ placed.reached, ?_⟩
  cases current : a.rest with
  | nil => exact ⟨done, by rw [same, block, moved, current, List.tail_nil]⟩
  | cons inst rest => exact ⟨done ++ [inst], by rw [same, block, moved, current]; simp⟩

theorem edge_of_goto (wellFormed : F.WellFormed) (placed : a.Placed F)
    (current : a.rest = inst :: rest) {X : Ctx} {m : Mem} {target : BasicBlock} {vals : List Val}
    (effect : exec X F a m inst = some (.goto target vals)) :
    ∃ edge ∈ F.outgoingEdges a.block, edge.target = target ∧
      X.operands F a.env edge.args = some vals := by
  obtain ⟨done, block⟩ := placed.suffix
  rw [current] at block
  obtain ⟨-, edge, leaves, isTarget, -, operands⟩ := wellFormed.edge_of_goto block effect
  exact ⟨edge, leaves, isTarget, operands⟩

theorem enterBlock (placed : a.Placed F) {edge : LogicalEdge}
    (leaves : edge ∈ F.outgoingEdges a.block) {vals : List Val}
    (entered : a.enterBlock F edge.target vals = some a') : a'.Placed F := by
  obtain ⟨-, insts, block, rfl⟩ := enterBlock_eq_some.mp entered
  have inLayout := FunctionData.mem_blocks block
  exact ⟨FunctionData.reachable_of_edge placed.reached leaves inLayout, [], by simpa using block⟩

theorem start {func : Function} {frame : Nat} {args : List Val}
    (started : Activation.start F func frame args = some a) : a.Placed F := by
  obtain ⟨entry, insts, isEntry, -, block, rfl⟩ := start_eq_some.mp started
  exact ⟨FunctionData.entry_reachable isEntry, [], by simpa using block⟩

end Activation.Placed

/-! ## The values of block parameters -/

section BindParams

variable {F : FunctionData} {env : Env} {param : Inst}

variable {params : List Inst} {vals : List Val} {env' : Env} {x : Inst}

/-- A parameter that is bound holds the argument at its position. -/
theorem bindParams_getElem (nodup : params.Nodup) (same : vals.length = params.length) {i : Nat}
    (isParam : params[i]? = some param) {v : Val}
    (bound : bindParams F env params vals param = some v) :
    ∃ arg ty, vals[i]? = some arg ∧ v = arg.fit ty := by
  induction params generalizing vals i with
  | nil => simp at isParam
  | cons first params ih =>
    cases vals with
    | nil => simp at same
    | cons val vals =>
      rw [List.nodup_cons] at nodup
      simp only [List.length_cons, Nat.add_right_cancel_iff] at same
      simp only [bindParams] at bound
      cases i with
      | zero =>
        simp only [List.getElem?_cons_zero, Option.some.injEq] at isParam
        subst isParam
        rw [Function.update_self, Option.map_eq_some_iff] at bound
        obtain ⟨data, -, rfl⟩ := bound
        exact ⟨val, data.ty, by simp, rfl⟩
      | succ i =>
        simp only [List.getElem?_cons_succ] at isParam ⊢
        have differ : param ≠ first := by
          rintro rfl
          exact nodup.1 (List.mem_of_getElem? isParam)
        rw [Function.update_of_ne differ] at bound
        exact ih nodup.2 same isParam bound

/-- Binding leaves the other instructions alone. -/
theorem bindParams_of_notMem (other : param ∉ params) :
    bindParams F env params vals param = env param := by
  induction params generalizing vals with
  | nil => rfl
  | cons first params ih =>
    cases vals with
    | nil => rfl
    | cons val vals =>
      rw [List.mem_cons, not_or] at other
      rw [bindParams, Function.update_of_ne other.1, ih other.2]

/-- What a bound parameter held before does not matter. -/
theorem bindParams_congr (same : vals.length = params.length)
    (agree : x ∉ params → env' x = env x) :
    bindParams F env' params vals x = bindParams F env params vals x := by
  induction params generalizing vals with
  | nil => exact agree (List.not_mem_nil)
  | cons first params ih =>
    cases vals with
    | nil => simp at same
    | cons val vals =>
      simp only [List.length_cons, Nat.add_right_cancel_iff] at same
      by_cases isFirst : x = first
      · subst isFirst
        simp only [bindParams, Function.update_self]
      · rw [bindParams, bindParams, Function.update_of_ne isFirst, Function.update_of_ne isFirst]
        refine ih same fun other => agree ?_
        simp [isFirst, other]

/-- Parameters of the same types get the same values. -/
theorem bindParams_sameTypes {F' : FunctionData}
    (types : ∀ p ∈ params, (F'.insts p).map InstData.ty = (F.insts p).map InstData.ty)
    (same : env' x = env x) : bindParams F' env' params vals x =
      bindParams F env params vals x := by
  induction params generalizing vals with
  | nil => exact same
  | cons first params ih =>
    cases vals with
    | nil => exact same
    | cons v vals =>
      by_cases isFirst : x = first
      · subst isFirst
        have sameTy := types x List.mem_cons_self
        rw [bindParams, bindParams, Function.update_self, Function.update_self]
        cases found : F.insts x with
        | none =>
          rw [found, Option.map_none, Option.map_eq_none_iff] at sameTy
          rw [sameTy]
        | some data =>
          rw [found, Option.map_some, Option.map_eq_some_iff] at sameTy
          obtain ⟨data', found', ty⟩ := sameTy
          rw [found', Option.map_some, Option.map_some, ty]
      · rw [bindParams, bindParams, Function.update_of_ne isFirst, Function.update_of_ne isFirst]
        exact ih fun p member => types p (List.mem_cons_of_mem _ member)

end BindParams

end AnonCompiler.Ir
