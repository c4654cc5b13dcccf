import AnonCompiler.Opt.FlowGraph
import AnonCompiler.Opt.Gvn

/-!
# Partial redundancy elimination

`opt/passes/gvn_pre.rs`.  A block with two or more incoming edges recomputes an
expression that its predecessors have already.  When every edge has a leader for it,
or all but one, the leaders become the arguments of a new parameter of the block and
the recomputation goes; on the one edge without a leader the expression is inserted,
in a block of its own when the edge is an arm of a branch.

One run over a function makes one such rewrite at most, the first one it finds, and
reports it.  `none` is a panic, or a loop that has not come to an end within the
fuel.  The arena a function sees, its own together with the globals, is passed on as
a function from handles to data.
-/

set_option autoImplicit false

namespace AnonCompiler.Opt.GvnPre

open Ir

abbrev Arena := Inst → Option InstData

def Arena.typeOf (arena : Arena) (inst : Inst) : Option Ty := (arena inst).map InstData.ty

/-! ## Value numbers -/

abbrev ValueNumber := Nat

structure Expr where
  operandTy : Ty
  resultTy : Ty
  op : BinaryOp
  lhs : ValueNumber
  rhs : ValueNumber
deriving DecidableEq, Repr

inductive ValueKey where
  | integer (ty : Ty) (value : BitVec 32)
  | expr (expr : Expr)
  | identity (ty : Ty) (value : Inst)
deriving DecidableEq, Repr

structure ValueNumbers where
  next : Nat
  values : Inst → Option ValueNumber
  keys : List (ValueKey × ValueNumber)

/-- The operators whose expressions are numbered. -/
def isCandidate : BinaryOp → Bool
  | .add | .sub | .mul | .and | .or | .xor | .eq | .notEq | .gt | .lt | .ge | .le => true
  | _ => false

def isCommutative : BinaryOp → Bool
  | .add | .mul | .and | .or | .xor | .eq | .notEq => true
  | _ => false

/-- The smaller number stands on the left where the operator can be turned. -/
def Expr.ordered (operandTy : Ty) (op : BinaryOp) (lhs rhs : ValueNumber) : Expr :=
  if rhs < lhs then
    if isCommutative op then ⟨operandTy, .int32, op, rhs, lhs⟩
    else
      match Gvn.swapCompareArgs op with
      | some swapped => ⟨operandTy, .int32, swapped, rhs, lhs⟩
      | none => ⟨operandTy, .int32, op, lhs, rhs⟩
  else ⟨operandTy, .int32, op, lhs, rhs⟩

namespace ValueNumbers

def init : ValueNumbers := ⟨0, fun _ => none, []⟩

/-- The number of a key, a new one for a new key, recorded for the value. -/
def intern (N : ValueNumbers) (value : Inst) (key : ValueKey) : ValueNumber × ValueNumbers :=
  match N.keys.lookup key with
  | some number => (number, { N with values := Function.update N.values value (some number) })
  | none =>
    (N.next,
      { next := N.next + 1
        values := Function.update N.values value (some N.next)
        keys := (key, N.next) :: N.keys })

variable (arena : Arena)

mutual

def number : Nat → ValueNumbers → Inst → Option (ValueNumber × ValueNumbers)
  | 0, _, _ => none
  | fuel + 1, N, value =>
    match N.values value with
    | some known => some (known, N)
    | none =>
      match arena value with
      | none => none
      | some ⟨ty, .integer v⟩ => some (N.intern value (.integer ty v))
      | some ⟨ty, .binary op lhs rhs⟩ =>
        match expr fuel N op lhs rhs with
        | none => none
        | some (some e, N) => some (N.intern value (.expr e))
        | some (none, N) => some (N.intern value (.identity ty value))
      | some ⟨ty, _⟩ => some (N.intern value (.identity ty value))

/-- The expression of an operation on two values; other operators and other types
have none. -/
def expr : Nat → ValueNumbers → BinaryOp → Inst → Inst → Option (Option Expr × ValueNumbers)
  | 0, _, _, _, _ => none
  | fuel + 1, N, op, lhs, rhs =>
    match arena.typeOf lhs with
    | none => none
    | some lhsTy =>
      if lhsTy ≠ .int32 then some (none, N)
      else
        match arena.typeOf rhs with
        | none => none
        | some rhsTy =>
          if rhsTy = lhsTy && isCandidate op then
            match number fuel N lhs with
            | none => none
            | some (l, N) =>
              match number fuel N rhs with
              | none => none
              | some (r, N) => some (some (.ordered lhsTy op l r), N)
          else some (none, N)

end

end ValueNumbers

/-! ## Leaders -/

/-- The table of leaders, with what the open scopes have overwritten in it. -/
structure ScopedLeaders where
  leaders : Expr → Option Inst
  scopes : List (List (Expr × Option Inst))

namespace ScopedLeaders

def init : ScopedLeaders := ⟨fun _ => none, []⟩

def enterScope (L : ScopedLeaders) : ScopedLeaders := { L with scopes := [] :: L.scopes }

def insert (L : ScopedLeaders) (expr : Expr) (leader : Inst) : Option ScopedLeaders :=
  match L.scopes with
  | [] => none
  | scope :: scopes =>
    some ⟨Function.update L.leaders expr (some leader), ((expr, L.leaders expr) :: scope) :: scopes⟩

/-- Put back what the scope has overwritten, the latest first. -/
def exitScope (L : ScopedLeaders) : Option ScopedLeaders :=
  match L.scopes with
  | [] => none
  | scope :: scopes =>
    some ⟨scope.foldl (fun leaders entry => Function.update leaders entry.1 entry.2) L.leaders,
      scopes⟩

end ScopedLeaders

/-- The place of a parameter in the list of its block. -/
def translatedOperand (params : List Inst) (edge : LogicalEdge) (operand : Inst) : Option Inst :=
  match params.idxOf? operand with
  | none => some operand
  | some index => edge.args[index]?

section Requests

variable (arena : Arena) (F : FunctionData) (G : CFG) (fuel : Nat)

abbrev Requests := BasicBlock → List Expr

/-- Ask the sources of the edges for an operation of their target. -/
def requestEdges (params : List Inst) (op : BinaryOp) (lhs rhs : Inst) :
    List LogicalEdge → Requests × ValueNumbers → Option (Requests × ValueNumbers)
  | [], state => some state
  | edge :: edges, (requested, N) =>
    match translatedOperand params edge lhs, translatedOperand params edge rhs with
    | some lhs', some rhs' =>
      match N.expr arena fuel op lhs' rhs' with
      | none => none
      | some (none, N) => requestEdges params op lhs rhs edges (requested, N)
      | some (some e, N) =>
        requestEdges params op lhs rhs edges
          (if e ∈ requested edge.source then requested
            else Function.update requested edge.source (e :: requested edge.source), N)
    | _, _ => requestEdges params op lhs rhs edges (requested, N)

def requestInsts (params : List Inst) (edges : List LogicalEdge) :
    List Inst → Requests × ValueNumbers → Option (Requests × ValueNumbers)
  | [], state => some state
  | inst :: insts, state =>
    match arena inst with
    | none => none
    | some ⟨_, .binary op lhs rhs⟩ =>
      (requestEdges arena fuel params op lhs rhs edges state).bind
        (requestInsts params edges insts)
    | some _ => requestInsts params edges insts state

/-- What the joins ask of the blocks before them. -/
def requests (state : Requests × ValueNumbers) : Option (Requests × ValueNumbers) :=
  G.blocks.foldlM (fun state bb =>
    if (G.incomingEdges F bb).length < 2 then some state
    else requestInsts arena fuel (F.blockParams bb) (G.incomingEdges F bb)
      ((F.blockInsts bb).getD [])
      state) state

structure LeaderWalk where
  leaders : ScopedLeaders
  numbers : ValueNumbers
  output : List ((BasicBlock × Expr) × Inst)
  stack : List Visit

/-- The operations of a block become leaders. -/
def leadInsts : List Inst → ScopedLeaders × ValueNumbers → Option (ScopedLeaders × ValueNumbers)
  | [], state => some state
  | inst :: insts, (L, N) =>
    match arena inst with
    | none => none
    | some ⟨_, .binary op lhs rhs⟩ =>
      match N.expr arena fuel op lhs rhs with
      | none => none
      | some (none, N) => leadInsts insts (L, N)
      | some (some e, N) => (L.insert e inst).bind fun L => leadInsts insts (L, N)
    | some _ => leadInsts insts (L, N)

/-- What the block has of the expressions that are asked of it. -/
def answers (requested : List Expr) (L : ScopedLeaders) (bb : BasicBlock) :
    List ((BasicBlock × Expr) × Inst) :=
  requested.filterMap fun e => (L.leaders e).map fun leader => ((bb, e), leader)

def LeaderWalk.step (T : DominanceTree) (requested : Requests) (w : LeaderWalk) :
    Option (LeaderWalk ⊕ LeaderWalk) :=
  match w.stack with
  | [] => some (.inr w)
  | .enter bb :: rest =>
    (leadInsts arena fuel ((F.blockInsts bb).getD []) (w.leaders.enterScope, w.numbers)).map
      fun state => .inl
        { leaders := state.1
          numbers := state.2
          output := answers (requested bb) state.1 bb ++ w.output
          stack := (T.children bb).map .enter ++ .exit bb :: rest }
  | .exit _ :: rest => w.leaders.exitScope.map fun L => .inl { w with leaders := L, stack := rest }

/-- `requested_leaders`: the leaders the joins may use, by block and expression. -/
def requestedLeaders (T : DominanceTree) :
    Option (List ((BasicBlock × Expr) × Inst) × ValueNumbers) := do
  let (requested, N) ← requests arena F G fuel (fun _ => [], .init)
  let walk ← Lib.loop (LeaderWalk.step arena F fuel T requested) fuel
    ⟨.init, N, [], [.enter G.entry]⟩
  some (walk.output, walk.numbers)

end Requests

/-! ## Looking for a rewrite -/

/-- The block of the graph that holds an instruction, with its place there. -/
def instructionPosition (F : FunctionData) (G : CFG) (inst : Inst) : Option (BasicBlock × Nat) :=
  G.blocks.findSome? fun bb =>
    (((F.blockInsts bb).getD []).idxOf? inst).map fun index => (bb, index)

def parameterBlock (F : FunctionData) (G : CFG) (param : Inst) : Option BasicBlock :=
  G.blocks.find? fun bb => param ∈ F.blockParams bb

section Search

variable (arena : Arena) (F : FunctionData) (G : CFG) (T : DominanceTree) (fuel : Nat)

/-- The value is defined when control leaves the block. -/
def valueAvailableBefore (bb : BasicBlock) (terminator value : Inst) : Bool :=
  if value.isGlobal || value ∈ F.params || (arena value).any (fun data =>
      match data.kind with
      | .integer _ => true
      | _ => false) then true
  else
    match instructionPosition F G value with
    | some (defBlock, position) =>
      if defBlock ≠ bb then T.dominates defBlock bb
      else (instructionPosition F G terminator).any fun place => position < place.2
    | none =>
      match parameterBlock F G value with
      | some defBlock => T.dominates defBlock bb
      | none => false

def edgeIsValid (bb : BasicBlock) (edge : LogicalEdge) : Bool :=
  edge.args.length = (F.blockParams bb).length &&
    (edge.args.zip (F.blockParams bb)).all fun pair => arena.typeOf pair.1 = arena.typeOf pair.2

/-- A leader, if there is one, and the operands as the edge passes them on. -/
structure Incoming where
  leader : Option Inst
  lhs : Inst
  rhs : Inst
deriving DecidableEq, Repr

/-- What the edges bring for an operation; `none` inside when one of them cannot take
part. -/
def edgeLeaders (output : List ((BasicBlock × Expr) × Inst)) (params : List Inst)
    (recomputation : Inst) (op : BinaryOp) (lhs rhs : Inst) :
    List LogicalEdge → ValueNumbers → Option (Option (List Incoming) × ValueNumbers)
  | [], N => some (some [], N)
  | edge :: edges, N =>
    match translatedOperand params edge lhs, translatedOperand params edge rhs with
    | some lhs', some rhs' =>
      match N.expr arena fuel op lhs' rhs' with
      | none => none
      | some (none, N) => some (none, N)
      | some (some e, N) =>
        if valueAvailableBefore arena F G T edge.source edge.terminator lhs' &&
            valueAvailableBefore arena F G T edge.source edge.terminator rhs' then
          (edgeLeaders output params recomputation op lhs rhs edges N).map fun result =>
            (result.1.map fun incoming =>
              ⟨(output.lookup (edge.source, e)).filter fun leader =>
                  arena.typeOf leader = arena.typeOf recomputation &&
                    valueAvailableBefore arena F G T edge.source edge.terminator leader,
                lhs', rhs'⟩ :: incoming,
              result.2)
        else some (none, N)
    | _, _ => some (none, N)

/-- A rewrite the pass has decided on. -/
structure Rewrite where
  bb : BasicBlock
  recomputation : Inst
  op : BinaryOp
  edges : List LogicalEdge
  incoming : List Incoming
deriving DecidableEq, Repr

/-- Every edge has a leader, and they are not all the same, or one edge has none. -/
def isRewrite (incoming : List Incoming) : Bool :=
  match incoming.filter (·.leader.isNone) with
  | [] => !(incoming.all fun i => i.leader = (incoming.head?.bind Incoming.leader))
  | [_] => true
  | _ => false

/-- The first rewrite of a block. -/
def findInBlock (output : List ((BasicBlock × Expr) × Inst)) (bb : BasicBlock)
    (edges : List LogicalEdge) :
    List Inst → ValueNumbers → Option (Option Rewrite × ValueNumbers)
  | [], N => some (none, N)
  | inst :: insts, N =>
    match arena inst with
    | none => none
    | some ⟨ty, .binary op lhs rhs⟩ =>
      match N.expr arena fuel op lhs rhs with
      | none => none
      | some (none, N) => findInBlock output bb edges insts N
      | some (some e, N) =>
        if ty = e.resultTy then
          match edgeLeaders arena F G T fuel output (F.blockParams bb) inst op lhs rhs edges
            N with
          | none => none
          | some (none, N) => findInBlock output bb edges insts N
          | some (some incoming, N) =>
            if isRewrite incoming then some (some ⟨bb, inst, op, edges, incoming⟩, N)
            else findInBlock output bb edges insts N
        else findInBlock output bb edges insts N
    | some _ => findInBlock output bb edges insts N

/-- A join no incoming edge of which comes from a block below it, with valid
edges. -/
def isJoin (bb : BasicBlock) : Bool :=
  2 ≤ (G.incomingEdges F bb).length &&
    (G.incomingEdges F bb).all fun edge => !T.dominates bb edge.source && edgeIsValid arena F bb
      edge

def findInBlocks (output : List ((BasicBlock × Expr) × Inst)) :
    List BasicBlock → ValueNumbers → Option (Option Rewrite)
  | [], _ => some none
  | bb :: blocks, N =>
    if isJoin arena F G T bb then
      match findInBlock arena F G T fuel output bb (G.incomingEdges F bb)
          ((F.blockInsts bb).getD []) N with
      | none => none
      | some (some rewrite, _) => some (some rewrite)
      | some (none, N) => findInBlocks output blocks N
    else findInBlocks output blocks N

end Search

/-- The first rewrite of a function, if it has one; a function without a body has
none. -/
def findRewrite (arena : Arena) (F : FunctionData) (fuel : Nat) : Option (Option Rewrite) :=
  match F.entryBlock with
  | none => some none
  | some entry => do
      let G ← CFG.ofEntry F fuel entry
      let T ← DominanceTree.ofCfg G fuel
      let (output, N) ← requestedLeaders arena F G fuel T
      findInBlocks arena F G T fuel output G.blocks N

/-! ## Making it -/

/-- `LogicalEdgeRewriter`: the terminators that are to be replaced. -/
abbrev Rewriter := List (Inst × InstKind)

namespace Rewriter

variable (F : FunctionData)

/-- Edit the target and the arguments of one arm. -/
def editArm (edit : BasicBlock → List Inst → BasicBlock × List Inst) :
    LogicalEdgeArm → InstKind → Option InstKind
  | .jump, .jump target args => some (.jump (edit target args).1 (edit target args).2)
  | .onTrue, .branch cond tTarget tArgs fTarget fArgs =>
    some (.branch cond (edit tTarget tArgs).1 (edit tTarget tArgs).2 fTarget fArgs)
  | .onFalse, .branch cond tTarget tArgs fTarget fArgs =>
    some (.branch cond tTarget tArgs (edit fTarget fArgs).1 (edit fTarget fArgs).2)
  | _, _ => none

def edit (R : Rewriter) (terminator : Inst) (arm : LogicalEdgeArm)
    (edit : BasicBlock → List Inst → BasicBlock × List Inst) : Option Rewriter :=
  (((R.lookup terminator).orElse fun _ => F.kind terminator).bind (editArm edit arm)).map
    fun kind => (terminator, kind) :: R.filter (·.1 ≠ terminator)

def appendArg (R : Rewriter) (terminator : Inst) (arm : LogicalEdgeArm) (value : Inst) :
    Option Rewriter :=
  R.edit F terminator arm fun target args => (target, args ++ [value])

def retarget (R : Rewriter) (edge : LogicalEdge) (target : BasicBlock) : Option Rewriter :=
  R.edit F edge.terminator edge.arm fun _ _ => (target, [])

def apply (R : Rewriter) (F : FunctionData) : FunctionData :=
  R.foldl (fun F entry => F.replaceInst entry.1 ⟨.unit, entry.2⟩) F

end Rewriter

/-- Append to every edge its leader; the edges without one get the inserted
instruction. -/
def appendLeaders (F : FunctionData) (inserted : Option Inst) :
    List (LogicalEdge × Incoming) → Rewriter → Option Rewriter
  | [], R => some R
  | (edge, incoming) :: rest, R =>
    match incoming.leader.orElse fun _ => inserted with
    | none => none
    | some value => (R.appendArg F edge.terminator edge.arm value).bind
        (appendLeaders F inserted rest)

/-- The recomputation becomes a new parameter of its block. -/
def replaceByParam (P : Program) (F : FunctionData) (rewrite : Rewrite) (R : Rewriter) :
    Option FunctionData :=
  (F.insts rewrite.recomputation).map fun data =>
    (Gvn.visitAndReplace P (R.apply (F.addParam rewrite.bb data.ty)) rewrite.recomputation
      F.nextInst).removeLayoutInst rewrite.bb rewrite.recomputation

/-- `apply`: every edge has a leader. -/
def applyFull (P : Program) (F : FunctionData) (rewrite : Rewrite) : Option FunctionData :=
  (appendLeaders F none (rewrite.edges.zip rewrite.incoming) []).bind
    (replaceByParam P F rewrite)

/-- Insert the expression before the jump of the edge. -/
def insertBeforeJump (P : Program) (F : FunctionData) (rewrite : Rewrite) (edge : LogicalEdge)
    (missing : Incoming) : Option FunctionData :=
  let F' := (F.newInst ⟨.int32, .binary rewrite.op missing.lhs missing.rhs⟩).insertBeforeTerminator
    edge.source F.nextInst
  (appendLeaders F' (some F.nextInst) (rewrite.edges.zip rewrite.incoming) []).bind
    (replaceByParam P F' rewrite)

/-- Insert the expression in a block of its own on the edge. -/
def insertOnSplit (P : Program) (F : FunctionData) (rewrite : Rewrite) (edge : LogicalEdge)
    (missing : Incoming) : Option FunctionData :=
  let split := F.nextBlock
  let inserted := F.nextInst
  let splitJump := F.nextInst + 1
  let F' := ((((((F.newInst ⟨.int32, .binary rewrite.op missing.lhs missing.rhs⟩).newBlock
    []).pushBlock split).insertInst split inserted).newInst
      ⟨.unit, .jump rewrite.bb edge.args⟩).insertInst split splitJump)
  (Rewriter.retarget F' [] edge split).bind fun R =>
    (appendLeaders F' none
      ((rewrite.edges.zip rewrite.incoming).filter fun pair => pair.2.leader.isSome) R).bind
        fun R =>
        (R.appendArg F' splitJump .jump inserted).bind (replaceByParam P F' rewrite)

/-- `apply_insertion`: the edge without a leader gets the expression. -/
def applyInsertion (P : Program) (F : FunctionData) (rewrite : Rewrite) (edge : LogicalEdge)
    (missing : Incoming) : Option FunctionData :=
  match edge.arm with
  | .jump => insertBeforeJump P F rewrite edge missing
  | _ => insertOnSplit P F rewrite edge missing

def applyRewrite (P : Program) (F : FunctionData) (rewrite : Rewrite) : Option FunctionData :=
  match (rewrite.edges.zip rewrite.incoming).find? (·.2.leader.isNone) with
  | none => applyFull P F rewrite
  | some (edge, missing) => applyInsertion P F rewrite edge missing

/-- One run over a function: the function after the rewrite, if there was one. -/
def runOn (fuel : Nat) (P : Program) (F : FunctionData) : Option (Option FunctionData) :=
  match findRewrite (P.instData F) F fuel with
  | none => none
  | some none => some none
  | some (some rewrite) => (applyRewrite P F rewrite).map some

end AnonCompiler.Opt.GvnPre
