import AnonCompiler.Lib.Growth
import AnonCompiler.Opt.IntRange
import AnonCompiler.Opt.FlowGraph

/-!
# The range analysis of one function

`RangeAnalysis::solve` of `opt/analysis_passes/range.rs`.  A state holds ranges of some
values; the range of another value is derived from its definition, and where that does
not lead anywhere from the join of all ranges seen for it.  The solver takes a block
from the worklist, walks through its instructions, and joins the state at the end,
refined by the branch condition, into each edge that leaves.  An edge that has changed
joins the arguments of all edges into the entry state of the target, which is put on
the worklist when that changes; the parameters of loop headers are widened after
`WIDEN_AFTER` changes.

The hash maps are finite maps.  `RangeAnalysis` holds what the solver only reads,
`Solver` what it writes.  A block outside the layout and an instruction outside the
arena, where the source panics, have no instructions and no `i32` type here.
-/

set_option autoImplicit false

namespace AnonCompiler.Opt

open Ir Lib

def WIDEN_AFTER : Nat := 3
def CONTEXT_DEPTH_LIMIT : Nat := 32

/-! ## Joining and refining ranges -/

namespace IntRange

def min? : IntRange → Option I32
  | .empty => none
  | .interval min _ _ => some min

def max? : IntRange → Option I32
  | .empty => none
  | .interval _ max _ => some max

def excludesZero (range : IntRange) : Bool := !range.contains 0

def join : IntRange → IntRange → IntRange
  | .empty, range => range
  | range, .empty => range
  | .interval lhsMin lhsMax lhsZero, .interval rhsMin rhsMax rhsZero =>
    normalized (I32.smin lhsMin rhsMin) (I32.smax lhsMax rhsMax) (lhsZero || rhsZero)

def intersect : IntRange → IntRange → IntRange
  | .interval lhsMin lhsMax lhsZero, .interval rhsMin rhsMax rhsZero =>
    normalized (I32.smax lhsMin rhsMin) (I32.smin lhsMax rhsMax) (lhsZero && rhsZero)
  | _, _ => .empty

def assumeEq (range other : IntRange) : IntRange := range.intersect other

def assumeNe (range other : IntRange) : IntRange :=
  match other.singleton with
  | none => range
  | some value =>
    if value = 0 then
      match range with
      | .empty => .empty
      | .interval min max _ => if min = 0 ∧ max = 0 then .empty else normalized min max false
    else if range.singleton = some value then .empty
    else range

def assumeLt (range other : IntRange) : IntRange :=
  match other.max? with
  | none => .empty
  | some otherMax =>
    if otherMax = I32.MIN then .empty else range.intersect (bounded I32.MIN (otherMax - 1))

def assumeLe (range other : IntRange) : IntRange :=
  match other.max? with
  | none => .empty
  | some otherMax => range.intersect (bounded I32.MIN otherMax)

def assumeGt (range other : IntRange) : IntRange :=
  match other.min? with
  | none => .empty
  | some otherMin =>
    if otherMin = I32.MAX then .empty else range.intersect (bounded (otherMin + 1) I32.MAX)

def assumeGe (range other : IntRange) : IntRange :=
  match other.min? with
  | none => .empty
  | some otherMin => range.intersect (bounded otherMin I32.MAX)

/-- A bound that has moved goes to the end of the type. -/
def widen : IntRange → IntRange → IntRange
  | .empty, range => range
  | range, .empty => range
  | .interval oldMin oldMax oldZero, .interval newMin newMax newZero =>
    normalized (if newMin.slt oldMin then I32.MIN else oldMin)
      (if oldMax.slt newMax then I32.MAX else oldMax) (oldZero || newZero)

end IntRange

def refineComparison (op : BinaryOp) (lhs rhs : IntRange) : IntRange × IntRange :=
  match op with
  | .eq => (lhs.assumeEq rhs, rhs.assumeEq lhs)
  | .notEq => (lhs.assumeNe rhs, rhs.assumeNe lhs)
  | .lt => (lhs.assumeLt rhs, rhs.assumeGt lhs)
  | .le => (lhs.assumeLe rhs, rhs.assumeGe lhs)
  | .gt => (lhs.assumeGt rhs, rhs.assumeLt lhs)
  | .ge => (lhs.assumeGe rhs, rhs.assumeLe lhs)
  | _ => (lhs, rhs)

/-! ## Definitions of values -/

abbrev RangeState := FinMap Inst IntRange

inductive ValueDef where
  | integer (value : I32)
  | zeroInit
  | undef
  | binary (op : BinaryOp) (lhs rhs : Inst)
  | select (condition ifTrue ifFalse : Inst)
  | cast (src : Inst) (sourceFloat : Option (BitVec 32))
  | call (callee : Function) (args : List Inst)
  | blockParameter
  | unknown
deriving DecidableEq, Repr

/-- `fold_f32_to_i32` on the bits of the float: the value towards zero, when it is
finite and in range. -/
def foldF32ToI32 (bits : BitVec 32) : Option I32 :=
  let exponent := bits.toNat / 2 ^ 23 % 2 ^ 8
  let fraction := bits.toNat % 2 ^ 23
  let magnitude : Nat :=
    if exponent < 127 then 0 else (2 ^ 23 + fraction) * 2 ^ (exponent - 127) / 2 ^ 23
  let value : Int := if bits.msb then -magnitude else magnitude
  if exponent = 255 then none
  else if I32.MIN.toInt ≤ value ∧ value < I32.MAX.toInt + 1 then some (BitVec.ofInt 32 value)
  else none

/-- The float a cast converts, when it is a constant. -/
def sourceFloat (P : Program) (F : FunctionData) (src : Inst) : Option (BitVec 32) :=
  match kindIn P F src with
  | some (.float bits) => some bits
  | _ => none

def valueDef (P : Program) (F : FunctionData) (data : InstData) : ValueDef :=
  if data.ty ≠ .int32 then .unknown
  else
    match data.kind with
    | .integer value => .integer value
    | .zeroInit => .zeroInit
    | .undef => .undef
    | .load _ => .undef
    | .call callee args => .call callee args
    | .binary op lhs rhs => .binary op lhs rhs
    | .select condition ifTrue ifFalse => .select condition ifTrue ifFalse
    | .cast src => .cast src (sourceFloat P F src)
    | .blockArgRef _ => .blockParameter
    | _ => .unknown

structure RangeAnalysis where
  definitions : Inst → Option ValueDef
  loopCaps : Inst → Option IntRange
  loopHeaders : List BasicBlock
  nonnegPreserving : List Function
  modmulBuiltin : Option Function
  nonnegParams : List Inst

namespace RangeAnalysis

/-- The analysis `RangeAnalysis::new` solves, with the caps of the loops. -/
def new (P : Program) (F : FunctionData) (loopHeaders : List BasicBlock)
    (nonnegPreserving : List Function) (nonnegParams : List Inst)
    (loopCaps : Inst → Option IntRange) : RangeAnalysis where
  definitions := fun inst => (P.instData F inst).map (valueDef P F)
  loopCaps := loopCaps
  loopHeaders := loopHeaders
  nonnegPreserving := nonnegPreserving
  modmulBuiltin := P.functionLayout.find? fun f =>
    (P.funcData f).any fun data => data.name = "soyo_mulmod"
  nonnegParams := nonnegParams

/-! ## The range of a value -/

variable (A : RangeAnalysis) (ranges facts : RangeState)

def baseRange (value : Inst) : IntRange :=
  match A.definitions value with
  | some (.integer value) => .constant value
  | some .zeroInit => .constant 0
  | some .unknown => .full
  | some .undef => .full
  | none => .full
  | _ => (ranges.lookup value).getD .full

def provesNonneg (range : IntRange) : Bool := range.min?.any fun min => BitVec.sle 0 min

/-- The remainder by a positive constant stays below it. -/
def mulmodRange (p : Inst) : IntRange :=
  match A.definitions p with
  | some (.integer value) =>
    if BitVec.slt 0 value then .bounded 0 (value - 1) else .bounded 0 I32.MAX
  | _ => .bounded 0 I32.MAX

def callRange (evaluate : Inst → IntRange) (callee : Function) (args : List Inst) : IntRange :=
  match decide (A.modmulBuiltin = some callee), args with
  | true, [a, b, p] =>
    if provesNonneg (evaluate a) && provesNonneg (evaluate b) then A.mulmodRange p else .full
  | _, _ =>
    if callee ∈ A.nonnegPreserving ∧ args.all fun arg => provesNonneg (evaluate arg) then
      .bounded 0 I32.MAX
    else .full

def selectRange (evaluate : Inst → IntRange) (condition ifTrue ifFalse : Inst) : IntRange :=
  if (evaluate condition).singleton = some 0 then evaluate ifFalse
  else if (evaluate condition).excludesZero then evaluate ifTrue
  else (evaluate ifTrue).join (evaluate ifFalse)

def castRange (evaluate : Inst → IntRange) (src : Inst) (sourceFloat : Option (BitVec 32)) :
    IntRange :=
  match sourceFloat.bind foldF32ToI32, A.definitions src with
  | some value, _ => .constant value
  | none, some (.integer _) => evaluate src
  | none, _ => .full

/-- `evaluate` is the evaluation of the operands. -/
def evaluateDef (evaluate : Inst → IntRange) (value : Inst) : IntRange :=
  match A.definitions value with
  | some (.integer value) => .constant value
  | some .zeroInit => .constant 0
  | some (.binary op lhs rhs) => transferBinary op (evaluate lhs) (evaluate rhs)
  | some (.select condition ifTrue ifFalse) => selectRange evaluate condition ifTrue ifFalse
  | some (.cast src sourceFloat) => A.castRange evaluate src sourceFloat
  | some .blockParameter => (ranges.lookup value).getD .full
  | some (.call callee args) => A.callRange evaluate callee args
  | some .undef => .full
  | some .unknown => .full
  | none => .full

/-- The first argument is what is left of the depth limit; `visiting` holds the values on
the way to this one. -/
def evaluateContextual : Nat → List Inst → Inst → IntRange
  | 0, _, value => (facts.lookup value).getD (A.baseRange ranges value)
  | left + 1, visiting, value =>
    match facts.lookup value with
    | some range => range
    | none =>
      if value ∈ visiting then A.baseRange ranges value
      else A.evaluateDef ranges (evaluateContextual left (value :: visiting)) value

def evalWithState (value : Inst) : IntRange :=
  A.evaluateContextual ranges facts CONTEXT_DEPTH_LIMIT [] value

/-! ## Refinement along an edge -/

variable (F : FunctionData)

def isI32 (inst : Inst) : Bool := (F.insts inst).any fun data => data.ty = .int32

/-- `none` where the arm cannot be taken. -/
def refineCondition (truth : Bool) (range : IntRange) : Option IntRange :=
  if truth && range.singleton = some 0 || !truth && range.excludesZero then none
  else
    let refined := if truth then range.assumeNe (.constant 0) else range.assumeEq (.constant 0)
    if refined = .empty then none else some refined

def complementIntegerCompare : BinaryOp → Option BinaryOp
  | .notEq => some .eq
  | .eq => some .notEq
  | .gt => some .le
  | .lt => some .ge
  | .ge => some .lt
  | .le => some .gt
  | _ => none

/-- The comparison that holds where the arm is taken. -/
def armCompare (truth : Bool) (op : BinaryOp) : BinaryOp :=
  if truth then op else (complementIntegerCompare op).getD op

def refineOperands (truth : Bool) (condition : Inst) (state : RangeState) : Option RangeState :=
  match A.definitions condition with
  | some (.binary op lhs rhs) =>
    if op.isCompare && isI32 F lhs && isI32 F rhs then
      let refined := refineComparison (armCompare truth op) (A.evalWithState ranges state lhs)
        (A.evalWithState ranges state rhs)
      if refined.1 = .empty ∨ refined.2 = .empty then none
      else some ((state.insert lhs refined.1).insert rhs refined.2)
    else some state
  | _ => some state

/-- `none` where the source returns `false`. -/
def refineEdge (edge : LogicalEdge) (state : RangeState) : Option RangeState :=
  match edge.arm, F.kind edge.terminator with
  | .jump, _ => some state
  | arm, some (.branch condition _ _ _ _) =>
    let truth : Bool := arm = .onTrue
    match refineCondition truth (A.evalWithState ranges state condition) with
    | none => none
    | some refined => A.refineOperands ranges F truth condition (state.insert condition refined)
  | _, _ => some state

end RangeAnalysis

/-! ## The solver -/

/-- `entry(value).and_modify(join).or_insert(range)` -/
def RangeState.observe (state : RangeState) (value : Inst) (range : IntRange) : RangeState :=
  state.insert value ((state.lookup value).elim range (·.join range))

def IntRange.merge (old range : IntRange) : IntRange × Bool :=
  (old.join range, decide (old.join range ≠ old))

def joinState (target incoming : RangeState) : RangeState × Bool :=
  target.mergeAll IntRange.merge incoming

structure Solver where
  ranges : RangeState
  blockEntries : FinMap BasicBlock RangeState
  edgeStates : FinMap LogicalEdge RangeState
  before : FinMap Inst RangeState
  worklist : List BasicBlock
  queued : Finset BasicBlock
  headerChanges : BasicBlock × Inst → Nat

namespace Solver

variable (A : RangeAnalysis) (F : FunctionData) (G : CFG)

def initialState : RangeState :=
  ((F.blockParams G.entry).filter (RangeAnalysis.isI32 F)).foldl (fun state parameter =>
    state.insert parameter
      (if parameter ∈ A.nonnegParams then .bounded 0 I32.MAX else .full)) ∅

def start : Solver where
  ranges := ∅
  blockEntries := AList.singleton G.entry (initialState A F G)
  edgeStates := ∅
  before := ∅
  worklist := [G.entry]
  queued := {G.entry}
  headerChanges := fun _ => 0

/-- One instruction; the state is the one in front of it. -/
def visitInst (S : Solver × RangeState) (inst : Inst) : Solver × RangeState :=
  if RangeAnalysis.isI32 F inst then
    -- The range an earlier round has seen is not a result of this one.
    let state := S.2.erase inst
    let range := A.evalWithState S.1.ranges state inst
    ({ S.1 with
        before := S.1.before.insert inst state
        ranges := S.1.ranges.observe inst range }, state.insert inst range)
  else ({ S.1 with before := S.1.before.insert inst S.2 }, S.2)

/-- The arguments one edge passes, joined to those of the edges before it. -/
def joinArguments (S : Solver) (target : BasicBlock) (result : RangeState) (edge : LogicalEdge) :
    RangeState :=
  match S.edgeStates.lookup edge with
  | none => result
  | some state =>
    ((F.blockParams target).zip edge.args).foldl (fun result (parameter, argument) =>
      if RangeAnalysis.isI32 F parameter then
        result.observe parameter (A.evalWithState S.ranges state argument)
      else result) result

def joinIncoming (S : Solver) (target : BasicBlock) : RangeState :=
  (G.incomingEdges F target).foldl (joinArguments A F S target) ∅

/-- A cap bounds the range of a header parameter. -/
def capped (parameter : Inst) (range : IntRange) : IntRange :=
  (A.loopCaps parameter).elim range range.intersect

def widenParam (entry : Option RangeState) (target : BasicBlock)
    (acc : RangeState × (BasicBlock × Inst → Nat)) (parameter : Inst) :
    RangeState × (BasicBlock × Inst → Nat) :=
  match acc.1.lookup parameter with
  | none => acc
  | some next =>
    let old := (entry.bind fun state => state.lookup parameter).getD .empty
    let changes := acc.2 (target, parameter)
    let value := if WIDEN_AFTER ≤ changes then old.widen next else next
    (acc.1.insert parameter (capped A parameter value), Function.update acc.2 (target, parameter)
        (if value ≠ old then changes + 1 else changes))

/-- What flows into a block, with the parameters of a header widened. -/
def flowInto (S : Solver) (target : BasicBlock) : RangeState × (BasicBlock × Inst → Nat) :=
  let incoming := joinIncoming A F G S target
  if target ∈ A.loopHeaders then
    (F.blockParams target).foldl (widenParam A (S.blockEntries.lookup target) target)
      (incoming, S.headerChanges)
  else (incoming, S.headerChanges)

def enterTarget (S : Solver) (target : BasicBlock) : Solver :=
  let flow := flowInto A F G S target
  let entered := S.blockEntries.mergeAt joinState target flow.1
  let S := { S with blockEntries := entered.1, headerChanges := flow.2 }
  if entered.2 ∧ target ∉ S.queued then
    { S with worklist := S.worklist ++ [target], queued := insert target S.queued }
  else S

/-- `state` is the one at the end of the block. -/
def followEdge (state : RangeState) (S : Solver) (edge : LogicalEdge) : Solver :=
  match A.refineEdge S.ranges F edge state with
  | none => S
  | some edgeState =>
    let met := S.edgeStates.mergeAt joinState edge edgeState
    let S := { S with edgeStates := met.1 }
    if met.2 then enterTarget A F G S edge.target else S

def visitBlock (S : Solver) (block : BasicBlock) (state : RangeState) : Solver :=
  let walked := ((F.blockInsts block).getD []).foldl (visitInst A F) (S, state)
  (F.outgoingEdges block).foldl (followEdge A F G walked.2) walked.1

/-- The ranges of the block entries and of the edges are observed at the end. -/
def finish (S : Solver) : Solver :=
  { S with
    ranges := (S.blockEntries.entries.map Sigma.snd ++ S.edgeStates.entries.map Sigma.snd).foldl
      (fun ranges state => state.entries.foldl (fun ranges entry =>
        RangeState.observe ranges entry.1 entry.2) ranges) S.ranges }

def step (S : Solver) : Option (Solver ⊕ Solver) :=
  match S.worklist with
  | [] => some (.inr S.finish)
  | block :: rest =>
    let S := { S with worklist := rest, queued := S.queued.erase block }
    match S.blockEntries.lookup block with
    | none => some (.inl S)
    | some state => some (.inl (visitBlock A F G S block state))

def solve (fuel : Nat) : Option Solver := loop (step A F G) fuel (start A F G)

end Solver

end AnonCompiler.Opt
