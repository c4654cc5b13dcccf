import AnonCompiler.Frontend.AstGen

/-!
# Expressions and their two translations

The expressions of `frontend/items.rs`, one type for each level of precedence, with
`convert`, which translates them inside a function, and `global_convert`, which evaluates
them at the top level (`frontend/ast.rs`).  Both fold an operator whose operands are
constants.

Calls, indexed values and values of type `float` are left out.  `none` is a panic, also of
`-i32::MIN` in a build with overflow checks.
-/

set_option autoImplicit false

namespace AnonCompiler.Frontend.AstGen

open AnonCompiler.Ir (BasicBlock BinaryOp truth)

inductive UnaryOp where
  | add
  | minus
  | negation
deriving DecidableEq, Repr

mutual
inductive Exp where
  | lOrExp (lOrExp : LOrExp)

inductive LOrExp where
  | lAndExp (lAndExp : LAndExp)
  | comp (lOrExp : LOrExp) (lAndExp : LAndExp)

inductive LAndExp where
  | eqExp (eqExp : EqExp)
  | comp (lAndExp : LAndExp) (eqExp : EqExp)

inductive EqExp where
  | relExp (relExp : RelExp)
  | comp (eqExp : EqExp) (op : BinaryOp) (relExp : RelExp)

inductive RelExp where
  | addExp (addExp : AddExp)
  | comp (relExp : RelExp) (op : BinaryOp) (addExp : AddExp)

inductive AddExp where
  | mulExp (mulExp : MulExp)
  | comp (addExp : AddExp) (op : BinaryOp) (mulExp : MulExp)

inductive MulExp where
  | unaryExp (unaryExp : UnaryExp)
  | comp (mulExp : MulExp) (op : BinaryOp) (unaryExp : UnaryExp)

inductive UnaryExp where
  | primaryExp (primaryExp : PrimaryExp)
  | unary (op : UnaryOp) (unaryExp : UnaryExp)

inductive PrimaryExp where
  | exp (exp : Exp)
  | lVal (ident : Ident)
  | number (num : BitVec 32)
end

/-! ## Folding one operator -/

def evalI32Binary (op : BinaryOp) (lhs rhs : BitVec 32) : Option (BitVec 32) :=
  match op with
  | .notEq => some (truth (lhs != rhs))
  | .eq => some (truth (lhs == rhs))
  | .gt => some (truth (rhs.slt lhs))
  | .lt => some (truth (lhs.slt rhs))
  | .ge => some (truth (rhs.sle lhs))
  | .le => some (truth (lhs.sle rhs))
  | .add => some (lhs + rhs)
  | .sub => some (lhs - rhs)
  | .mul => some (lhs * rhs)
  | .div => if rhs = 0 then none else some (lhs.sdiv rhs)
  | .rem => if rhs = 0 then none else some (lhs.srem rhs)
  | .and => some (lhs &&& rhs)
  | .or => some (lhs ||| rhs)
  | .xor => some (lhs ^^^ rhs)
  | .shl => some (lhs <<< (rhs.toNat % 32))
  | .shr => some (lhs >>> (rhs.toNat % 32))
  | .sar => some (lhs.sshiftRight (rhs.toNat % 32))
  | .min | .max => none

/-- The two unary operators that do something, on an integer. -/
def UnaryOp.fold (overflowChecks : Bool) (value : BitVec 32) : UnaryOp → Option (BitVec 32)
  | .add => some value
  | .minus => if overflowChecks && value == BitVec.intMin 32 then none else some (-value)
  | .negation => some (truth (value == 0))

/-! ## At the top level -/

abbrev Translation := AstGenContext → Option AstGenContext

/-- `BinaryOp::global_convert` -/
def globalBinary (op : BinaryOp) : Translation := fun ctx => do
  let (ctx, rhs) ← ctx.popVal
  let (ctx, lhs) ← ctx.popVal
  let lhs ← (← ctx.instKind lhs).asI32
  let rhs ← (← ctx.instKind rhs).asI32
  some (ctx.pushGlobal (← evalI32Binary op lhs rhs))

/-- `UnaryOp::global_convert` -/
def globalUnary (overflowChecks : Bool) (op : UnaryOp) : Translation := fun ctx =>
  if op = .add then some ctx
  else do
    let (ctx, rhs) ← ctx.popVal
    let value ← (← ctx.instKind rhs).asI32
    some (ctx.pushGlobal (← op.fold overflowChecks value))

/-- The common part of `LOrExp::global_convert` and `LAndExp::global_convert`. -/
def globalLogical (combine : Bool → Bool → Bool) (lhs rhs : Translation) : Translation :=
  fun ctx => do
    let ctx ← lhs ctx
    let (ctx, lhsVal) ← ctx.popVal
    let lhsInt ← (← ctx.instKind lhsVal).asI32
    let ctx ← rhs ctx
    let (ctx, rhsVal) ← ctx.popVal
    let rhsInt ← (← ctx.instKind rhsVal).asI32
    some (ctx.pushGlobal (truth (combine (lhsInt != 0) (rhsInt != 0))))

def globalOr : Translation → Translation → Translation := globalLogical (· || ·)

def globalAnd : Translation → Translation → Translation := globalLogical (· && ·)

/-- `comp` at one of the levels of binary operators. -/
def globalComp (lhs rhs : Translation) (op : BinaryOp) : Translation := fun ctx => do
  let ctx ← lhs ctx
  let ctx ← rhs ctx
  globalBinary op ctx

/-- A constant stands for itself, a variable for its initial value. -/
def globalLVal (ident : Ident) : Translation := fun ctx => do
  let scope ← ctx.globalScope
  match ← scope ident with
  | .constant val => some (ctx.pushVal val)
  | .variable var =>
    match ← ctx.instKind var with
    | .globalAlloc init =>
      match ← ctx.instKind init with
      | .integer value => some (ctx.pushGlobal value)
      | .zeroInit => some (ctx.pushGlobal 0)
      | _ => none
    | _ => none
  | .callable => none

section Global

variable (overflowChecks : Bool)

mutual
def Exp.globalConvert : Exp → Translation
  | .lOrExp e => e.globalConvert

def LOrExp.globalConvert : LOrExp → Translation
  | .lAndExp e => e.globalConvert
  | .comp lhs rhs => globalOr lhs.globalConvert rhs.globalConvert

def LAndExp.globalConvert : LAndExp → Translation
  | .eqExp e => e.globalConvert
  | .comp lhs rhs => globalAnd lhs.globalConvert rhs.globalConvert

def EqExp.globalConvert : EqExp → Translation
  | .relExp e => e.globalConvert
  | .comp lhs op rhs => globalComp lhs.globalConvert rhs.globalConvert op

def RelExp.globalConvert : RelExp → Translation
  | .addExp e => e.globalConvert
  | .comp lhs op rhs => globalComp lhs.globalConvert rhs.globalConvert op

def AddExp.globalConvert : AddExp → Translation
  | .mulExp e => e.globalConvert
  | .comp lhs op rhs => globalComp lhs.globalConvert rhs.globalConvert op

def MulExp.globalConvert : MulExp → Translation
  | .unaryExp e => e.globalConvert
  | .comp lhs op rhs => globalComp lhs.globalConvert rhs.globalConvert op

def UnaryExp.globalConvert : UnaryExp → Translation
  | .primaryExp e => e.globalConvert
  | .unary op e => fun ctx => (e.globalConvert ctx).bind (globalUnary overflowChecks op)

def PrimaryExp.globalConvert : PrimaryExp → Translation
  | .exp e => e.globalConvert
  | .lVal ident => globalLVal ident
  | .number num => fun ctx => some (ctx.pushGlobal num)
end

end Global

/-! ## Inside a function -/

/-- Nothing is translated behind the end of a block. -/
def unlessComplete (translate : Translation) : Translation := fun ctx => do
  if ← ctx.isCompleteBb then some ctx else translate ctx

/-- `BinaryOp::convert` -/
def convertBinary (op : BinaryOp) : Translation := unlessComplete fun ctx => do
  let (ctx, rhs) ← ctx.popVal
  let (ctx, lhs) ← ctx.popVal
  match (← ctx.instKind lhs).asI32, (← ctx.instKind rhs).asI32 with
  | some lhs, some rhs => some (ctx.pushLocal (← evalI32Binary op lhs rhs))
  | _, _ =>
    ((ctx.newLocalValue (.binary op lhs rhs)).pushVal (.local ctx.nextInst)).pushInst ctx.nextInst

/-- `UnaryOp::convert` -/
def convertUnary (overflowChecks : Bool) (op : UnaryOp) : Translation := unlessComplete fun ctx =>
  if op = .add then some ctx
  else do
    let (ctx, rhs) ← ctx.popVal
    match (← ctx.instKind rhs).asI32 with
    | some value => some (ctx.pushLocal (← op.fold overflowChecks value))
    | none =>
      let zero := Inst.local ctx.nextInst
      let ctx := ctx.newLocalValue (.integer 0)
      let kind := if op = .minus then InstKind.binary .sub zero rhs else .binary .eq rhs zero
      ((ctx.newLocalValue kind).pushVal (.local ctx.nextInst)).pushInst ctx.nextInst

/-- The end of `LOrExp::convert` and `LAndExp::convert`, when the right operand is translated. -/
def mergeLogical (combine : Bool → Bool → Bool) (lhs : Inst) (original rhsBb mergeBb : BasicBlock)
    (br : Nat) : Translation := fun ctx => do
  let (ctx, rhs) ← ctx.popVal
  match (← ctx.instKind lhs).asI32, (← ctx.instKind rhs).asI32 with
  | some lhsInt, some rhsInt =>
    let (ctx, _) ← ctx.setCurrBb original
    let ctx ← ctx.removeInst br
    let ctx ← ctx.removeBb rhsBb
    let ctx ← ctx.removeBb mergeBb
    some (ctx.pushLocal (truth (combine (lhsInt != 0) (rhsInt != 0))))
  | _, _ =>
    let (ctx, rhsNe0) ← ctx.truthyLocal rhs
    let jump := ctx.nextInst
    let ctx ← (ctx.newLocalValue (.jump mergeBb [rhsNe0])).pushInst jump
    let (ctx, _) ← ctx.setCurrBb mergeBb
    some (ctx.pushVal (← (ctx.bbParams mergeBb)[0]?))

/-- The common part of `LOrExp::convert` and `LAndExp::convert`.  The branch is given the condition,
the block of the right operand and the block where both ways meet. -/
def convertLogical
    (prepare : AstGenContext → AstGenContext × (Inst → BasicBlock → BasicBlock → InstKind))
    (combine : Bool → Bool → Bool) (lhs rhs : Translation) : Translation := fun ctx => do
  let ctx ← lhs ctx
  let (ctx, lhs) ← ctx.popVal
  let (ctx, branch) := prepare ctx
  let (ctx, lhsNe0) ← ctx.truthyLocal lhs
  let rhsBb := ctx.nextBb
  let ctx ← (ctx.newBasicBlock 0).registerBb rhsBb
  let mergeBb := ctx.nextBb
  let ctx ← (ctx.newBasicBlock 1).registerBb mergeBb
  let br := ctx.nextInst
  let ctx ← (ctx.newLocalValue (branch lhsNe0 rhsBb mergeBb)).pushInst br
  let (ctx, original) ← ctx.setCurrBb rhsBb
  mergeLogical combine lhs (← original) rhsBb mergeBb br (← rhs ctx)

def convertOr : Translation → Translation → Translation :=
  convertLogical (fun ctx => (ctx, fun cond rhsBb mergeBb => .branch cond mergeBb [cond] rhsBb []))
    (· || ·)

def convertAnd : Translation → Translation → Translation :=
  convertLogical (fun ctx => (ctx.newLocalValue (.integer 0),
    fun cond rhsBb mergeBb => .branch cond rhsBb [] mergeBb [.local ctx.nextInst])) (· && ·)

/-- `comp` at one of the levels of binary operators. -/
def convertComp (lhs rhs : Translation) (op : BinaryOp) : Translation := fun ctx => do
  let ctx ← lhs ctx
  let ctx ← rhs ctx
  convertBinary op ctx

/-- A constant is copied, a variable is loaded. -/
def convertLVal (ident : Ident) : Translation := fun ctx => do
  match ← ctx.getSymbol ident with
  | .constant constVal =>
    let (ctx, val) ← ctx.asLocalConstVal constVal
    some (ctx.pushVal val)
  | .variable varPtr =>
    let load := ctx.nextInst
    let ctx ← (ctx.newLocalValue (.load varPtr)).pushInst load
    some (ctx.pushVal (.local load))
  | .callable => none

section Local

variable (overflowChecks : Bool)

mutual
def Exp.convert : Exp → Translation
  | .lOrExp e => unlessComplete e.convert

def LOrExp.convert : LOrExp → Translation
  | .lAndExp e => unlessComplete e.convert
  | .comp lhs rhs => unlessComplete (convertOr lhs.convert rhs.convert)

def LAndExp.convert : LAndExp → Translation
  | .eqExp e => unlessComplete e.convert
  | .comp lhs rhs => unlessComplete (convertAnd lhs.convert rhs.convert)

def EqExp.convert : EqExp → Translation
  | .relExp e => unlessComplete e.convert
  | .comp lhs op rhs => unlessComplete (convertComp lhs.convert rhs.convert op)

def RelExp.convert : RelExp → Translation
  | .addExp e => unlessComplete e.convert
  | .comp lhs op rhs => unlessComplete (convertComp lhs.convert rhs.convert op)

def AddExp.convert : AddExp → Translation
  | .mulExp e => unlessComplete e.convert
  | .comp lhs op rhs => unlessComplete (convertComp lhs.convert rhs.convert op)

def MulExp.convert : MulExp → Translation
  | .unaryExp e => unlessComplete e.convert
  | .comp lhs op rhs => unlessComplete (convertComp lhs.convert rhs.convert op)

def UnaryExp.convert : UnaryExp → Translation
  | .primaryExp e => unlessComplete e.convert
  | .unary op e =>
    unlessComplete fun ctx => (e.convert ctx).bind (convertUnary overflowChecks op)

def PrimaryExp.convert : PrimaryExp → Translation
  | .exp e => unlessComplete e.convert
  | .lVal ident => unlessComplete (convertLVal ident)
  | .number num => unlessComplete fun ctx => some (ctx.pushLocal num)
end

end Local

end AnonCompiler.Frontend.AstGen
