import AnonCompiler.Ir.Cfg

/-!
# Non-negativity summaries

`opt/analysis_passes/return_summary.rs` and the pass
`opt/passes/guard_elimination.rs` that acts on it.

`nonnegInFunction` collects the values of one function that are taken to be
non-negative, from a set of parameters and a set of functions assumed to return
non-negative values.  `nonnegPreservingFunctions` grows the second set from
nothing, each candidate being checked under the assumption that it belongs to
the set itself; `alwaysNonnegParams` starts from all `i32` parameters and drops
those some call site cannot prove.  The sets of the source are lists here, and
the order in which the source walks its hash sets does not matter: every pass is
repeated until it changes nothing.

The recursion of `valueIsNonneg` through the operands stops at block
parameters, so it visits no instruction twice on one path, and the size of the
arena is enough fuel.
-/

set_option autoImplicit false

namespace AnonCompiler.Opt

open Ir Lib

def isDecl (F : FunctionData) : Bool := F.layout.isEmpty

/-- The data of the functions that have a body. -/
def definedData (P : Program) (f : Function) : Option FunctionData :=
  (P.funcData f).filter (!isDecl ·)

namespace PureFunction

/-- The entry points of the runtime library. -/
def isLibraryFunction (name : String) : Bool :=
  name ∈ ["getint", "getch", "getfloat", "getarray", "getfarray", "putint", "putch", "putfloat",
    "putarray", "putfarray", "putf"]

/-- The chain of bases of a pointer ends in something the caller may see.  A
chain that runs into itself does not. -/
def callerVisiblePtr (P : Program) (F : FunctionData) : Nat → Inst → Bool
  | 0, _ => false
  | fuel + 1, inst =>
    if inst.isGlobal || F.params.contains inst then true
    else
      match kindIn P F inst with
      | some (.getElemPtr base _) => callerVisiblePtr P F fuel base
      | some (.cast src) => callerVisiblePtr P F fuel src
      | _ => true

/-- The instruction keeps a function from being pure. -/
def touchesCaller (P : Program) (F : FunctionData) (inst : Inst) : Bool :=
  let visible := callerVisiblePtr P F (F.nextInst + 1)
  match F.kind inst with
  | some (.load src) => visible src
  | some (.store src dest) => visible src || visible dest
  | some (.memZero dest _) => visible dest
  | some (.getElemPtr base _) => base.isGlobal
  | _ => false

def locallyPure (P : Program) (f : Function) : Bool :=
  match P.funcData f with
  | none => false
  | some F =>
    if isLibraryFunction F.name then false
    else if F.name = mulmodHelper then true
    else if isDecl F then false
    else F.layoutInsts.all (!touchesCaller P F ·)

def callsImpure (P : Program) (pure : List Function) (f : Function) : Bool :=
  match P.funcData f with
  | none => false
  | some F => F.layoutInsts.any fun inst =>
    match F.kind inst with
    | some (.call callee _) | some (.tailCall callee _) => !pure.contains callee
    | _ => false

/-- One pass over the candidates; an impure one leaves the set at once. -/
def dropImpure (P : Program) (pure : List Function) : Option (List Function) :=
  let kept := pure.foldl (fun kept f => if callsImpure P kept f then kept.erase f else kept) pure
  if kept.length = pure.length then none else some kept

def pureFunctions (P : Program) : List Function :=
  let candidates := P.functionLayout.filter (locallyPure P)
  iterate (dropImpure P) candidates.length candidates

end PureFunction

namespace ReturnSummary

open PureFunction

section Local

variable (P : Program) (F : FunctionData)

def isInteger (value : BitVec 32) (inst : Inst) : Bool := kindIn P F inst = some (.integer value)

/-- A logical shift right by 31. -/
def shrIs (inst : Inst) : Bool :=
  match kindIn P F inst with
  | some (.binary .shr _ rhs) => isInteger P F 31 rhs
  | _ => false

/-- The operand `x` of `add(x, shr(_, 31))`, in either order of the operands;
what is shifted is not looked at. -/
def halvingBase (inst : Inst) : Option Inst :=
  match kindIn P F inst with
  | some (.binary .add lhs rhs) =>
    if shrIs P F rhs then some lhs else if shrIs P F lhs then some rhs else none
  | _ => none

/-- The value whose sign decides the sign of `sar(lhs, rhs)`. -/
def sarBase (lhs rhs : Inst) : Inst :=
  if isInteger P F 1 rhs then (halvingBase P F lhs).getD lhs else lhs

def positiveInteger (inst : Inst) : Bool :=
  match kindIn P F inst with
  | some (.integer value) => 0 < value.toInt
  | _ => false

/-- The rules for arithmetic, with the operands decided by `check`. -/
def binaryRule (check : Inst → Bool) (op : BinaryOp) (lhs rhs : Inst) : Bool :=
  match op with
  | .rem | .shr => check lhs
  | .sar => check (sarBase P F lhs rhs)
  | .and => check lhs && check rhs
  | .div => check lhs && positiveInteger P F rhs
  | _ => false

/-- The rules for calls: the builtin is known by its name. -/
def callRule (nonneg : List Function) (check : Inst → Bool) (callee : Function) (args : List Inst) :
    Bool :=
  if (P.funcData callee).map FunctionData.name = some mulmodHelper then
    match args with
    | [a, b, _] => check a && check b
    | _ => false
  else nonneg.contains callee && args.all check

def kindRule (nonneg : List Function) (check : Inst → Bool) : InstKind → Bool
  | .integer value => 0 ≤ value.toInt
  | .zeroInit => true
  | .binary op lhs rhs => binaryRule P F check op lhs rhs
  | .select _ ifTrue ifFalse => check ifTrue && check ifFalse
  | .call callee args => callRule P nonneg check callee args
  | _ => false

/-- One rule for `inst`, with the operands decided by `check`. -/
def ruleHolds (nonneg : List Function) (check : Inst → Bool) (inst : Inst) : Bool :=
  (kindIn P F inst).any (kindRule P F nonneg check)

def valueIsNonneg (nonneg : List Function) (facts : List Inst) : Nat → Inst → Bool
  | 0, inst => facts.contains inst
  | fuel + 1, inst =>
    facts.contains inst || ruleHolds P F nonneg (valueIsNonneg nonneg facts fuel) inst

/-- `value_is_nonneg` of the source. -/
def proves (nonneg : List Function) (facts : List Inst) (inst : Inst) : Bool :=
  valueIsNonneg P F nonneg facts F.nextInst inst

/-- The constants the facts start with. -/
def isNonnegConstant (inst : Inst) : Bool :=
  match F.kind inst with
  | some (.integer value) => 0 ≤ value.toInt
  | some .zeroInit => true
  | _ => false

/-- The `i32` block parameters with their block and position. -/
def paramBlocks : List (Inst × BasicBlock × Nat) :=
  F.blocks.flatMap fun bb =>
    (F.blockParams bb).zipIdx.filterMap fun (param, position) =>
      if (F.insts param).map InstData.ty = some .int32 then some (param, bb, position) else none

/-- Every edge into the block passes a non-negative value at the position. -/
def edgesProve (check : Inst → Bool) (bb : BasicBlock) (position : Nat) : Bool :=
  F.entryBlock ≠ some bb && F.reachable.contains bb &&
    (F.incomingEdges bb).all fun edge => (edge.args[position]?).any check

def addFact (facts : List Inst) (inst : Inst) (holds : Bool) : List Inst :=
  if !facts.contains inst && holds then inst :: facts else facts

def settleParams (nonneg : List Function) (facts : List Inst) : List Inst :=
  (paramBlocks F).foldl
    (fun facts (param, bb, position) =>
      addFact facts param (edgesProve F (proves P F nonneg facts) bb position)) facts

def propagate (nonneg : List Function) (facts : List Inst) : List Inst :=
  F.layout.foldl
    (fun facts (bb, insts) =>
      if F.reachable.contains bb then
        insts.foldl (fun facts inst => addFact facts inst (proves P F nonneg facts inst)) facts
      else facts) facts

/-- One round of the loop; `none` when it changes nothing. -/
def round (nonneg : List Function) (facts : List Inst) : Option (List Inst) :=
  let next := propagate P F nonneg (settleParams P F nonneg facts)
  if next.length = facts.length then none else some next

/-- The values of the function taken to be non-negative. -/
def nonnegInFunction (nonnegParams : List Inst) (nonneg : List Function) : List Inst :=
  let facts := nonnegParams ++ (List.range F.nextInst).filter (isNonnegConstant F)
  if isDecl F then facts
  else iterate (round P F nonneg) (F.nextInst + 1) facts

/-- Every value a `ret` of the function gives back is among the facts. -/
def returnsAreNonneg (nonnegParams : List Inst) (nonneg : List Function) : Bool :=
  let facts := nonnegInFunction P F nonnegParams nonneg
  F.layoutInsts.all fun inst =>
    match F.kind inst with
    | some (.ret (some value)) => facts.contains value
    | _ => true

end Local

section Summaries

variable (P : Program)

/-- Check one candidate under the assumption that it is in the set. -/
def tryCandidate (pure nonneg : List Function) (f : Function) : List Function :=
  match definedData P f with
  | none => nonneg
  | some F =>
    if pure.contains f && !nonneg.contains f && returnsAreNonneg P F F.params (f :: nonneg) then
      f :: nonneg
    else nonneg

def admitAll (nonneg : List Function) : Option (List Function) :=
  let next := P.functionLayout.foldl (tryCandidate P (pureFunctions P)) nonneg
  if next.length = nonneg.length then none else some next

def nonnegPreservingFunctions : List Function :=
  iterate (admitAll P) (P.functionLayout.length + 1) []

/-- Parameters, function by function. -/
abbrev ParamMap := List (Function × List Inst)

def paramsOf (params : ParamMap) (f : Function) : List Inst := (params.lookup f).getD []

/-- The argument at a position of every call and tail call of `f` in one caller
is among the facts of the caller. -/
def sitesProve (f : Function) (position : Nat) (C : FunctionData) (facts : List Inst) : Bool :=
  C.layoutInsts.all fun inst =>
    match C.kind inst with
    | some (.call callee args) | some (.tailCall callee args) =>
      callee ≠ f || (args[position]?).any facts.contains
    | _ => true

def paramProvableAtAllSites (nonneg : List Function) (current : ParamMap) (f : Function)
    (position : Nat) : Bool :=
  P.functionLayout.all fun caller =>
    match definedData P caller with
    | none => true
    | some C => sitesProve f position C (nonnegInFunction P C (paramsOf current caller) nonneg)

def candidateParams : ParamMap :=
  P.functionLayout.filterMap fun f =>
    (definedData P f).map fun F =>
      (f, F.params.filter fun param => (F.insts param).map InstData.ty = some .int32)

/-- One pass: every parameter is judged by the sets at the start of the pass. -/
def dropParams (nonneg : List Function) (current : ParamMap) : Option ParamMap :=
  let next := current.map fun entry => (entry.1, entry.2.filter fun param =>
    (definedData P entry.1).any fun F =>
      paramProvableAtAllSites P nonneg current entry.1 (F.params.idxOf param))
  if next = current then none else some next

def alwaysNonnegParams (nonneg : List Function) : ParamMap :=
  iterate (dropParams P nonneg) ((candidateParams P).map (·.2.length)).sum (candidateParams P)

end Summaries

end ReturnSummary

namespace GuardElimination

open ReturnSummary

/-- The branch `br (x < 0)` a block ends in, with its false edge. -/
def guardOf (P : Program) (F : FunctionData) (facts : List Inst) (bb : BasicBlock) :
    Option (Inst × BasicBlock × List Inst) := do
  let terminator ← F.terminator bb
  match ← F.kind terminator with
  | .branch cond _ _ fTarget fArgs =>
    match ← kindIn P F cond with
    | .binary .lt x bound =>
      if isInteger P F 0 bound && facts.contains x then some (terminator, fTarget, fArgs)
      else none
    | _ => none
  | _ => none

/-- The facts the pass has about a function. -/
def factsOf (P : Program) (f : Function) (F : FunctionData) : List Inst :=
  let nonneg := nonnegPreservingFunctions P
  nonnegInFunction P F (paramsOf (alwaysNonnegParams P nonneg) f) nonneg

/-- The branches of a function the pass replaces by jumps. -/
def folds (P : Program) (f : Function) (F : FunctionData) : List (Inst × BasicBlock × List Inst) :=
  F.blocks.filterMap (guardOf P F (factsOf P f F))

def foldGuards (F : FunctionData) (guards : List (Inst × BasicBlock × List Inst)) : FunctionData :=
  guards.foldl (fun F (inst, target, args) => F.replaceInst inst ⟨.unit, .jump target args⟩) F

def run (P : Program) : Program :=
  { P with
    funcs := P.funcs.zipIdx.map fun (F, f) =>
      if P.functionLayout.contains f && !isDecl F then foldGuards F (folds P f F) else F }

end GuardElimination

end AnonCompiler.Opt
