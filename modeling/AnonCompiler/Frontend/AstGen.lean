import AnonCompiler.Ir.Arena
import AnonCompiler.Ir.Exec

/-!
# The context of the translation to IR

`AstGenContext` of `frontend/utils.rs`, as far as expressions over integers use it: the
arenas, the layout of the current function, the current block, the value stack and the
scopes.  `none` is a panic.

A handle says here by its constructor which arena it belongs to.  Values of type `float`
are left out; one stands only in the default return of a `float` function.
-/

set_option autoImplicit false

namespace AnonCompiler.Frontend.AstGen

open AnonCompiler.Ir (BasicBlock BinaryOp Layout)

abbrev Ident := String

inductive Inst where
  | local (id : Nat)
  | global (id : Nat)
deriving DecidableEq, Repr

inductive InstKind where
  | integer (value : BitVec 32)
  | float (bits : BitVec 32)
  | zeroInit
  | blockArgRef (index : Nat)
  | alloc
  | globalAlloc (init : Inst)
  | load (src : Inst)
  | binary (op : BinaryOp) (lhs rhs : Inst)
  | jump (target : BasicBlock) (args : List Inst)
  | branch (cond : Inst) (tTarget : BasicBlock) (tArgs : List Inst) (fTarget : BasicBlock)
      (fArgs : List Inst)
  | ret (value : Option Inst)
deriving DecidableEq, Repr

namespace InstKind

def isTerminator : InstKind → Bool
  | .branch .. | .jump .. | .ret _ => true
  | _ => false

def asI32 : InstKind → Option (BitVec 32)
  | .integer value => some value
  | _ => none

@[simp] theorem asI32_integer (value : BitVec 32) : (integer value).asI32 = some value := rfl

end InstKind

/-- The type of the current function's result. -/
inductive RetTy where
  | unit
  | int32
  | float32
deriving DecidableEq, Repr

inductive Symbol where
  | constant (val : Inst)
  | variable (ptr : Inst)
  | callable
deriving DecidableEq, Repr

/-- The scopes stand with the global one first. -/
structure AstGenContext where
  retTy : RetTy
  insts : Nat → Option InstKind
  nextInst : Nat
  bbParams : BasicBlock → List Inst
  nextBb : BasicBlock
  layout : Layout
  globals : Nat → Option InstKind
  nextGlobal : Nat
  valStack : List Inst
  currBb : Option BasicBlock
  symbolTable : List (Ident → Option Symbol)

namespace AstGenContext

def getSymbol (ctx : AstGenContext) (ident : Ident) : Option Symbol :=
  ctx.symbolTable.reverse.findSome? fun scope => scope ident

def globalScope (ctx : AstGenContext) : Option (Ident → Option Symbol) := ctx.symbolTable.head?

/-- `inst_data(inst).kind()` -/
def instKind (ctx : AstGenContext) : Inst → Option InstKind
  | .local id => ctx.insts id
  | .global id => ctx.globals id

/-- A new local value; its handle is `.local ctx.nextInst`. -/
def newLocalValue (ctx : AstGenContext) (kind : InstKind) : AstGenContext :=
  { ctx with
    insts := Function.update ctx.insts ctx.nextInst (some kind)
    nextInst := ctx.nextInst + 1 }

/-- A new global value; its handle is `.global ctx.nextGlobal`. -/
def newGlobalValue (ctx : AstGenContext) (kind : InstKind) : AstGenContext :=
  { ctx with
    globals := Function.update ctx.globals ctx.nextGlobal (some kind)
    nextGlobal := ctx.nextGlobal + 1 }

def pushVal (ctx : AstGenContext) (val : Inst) : AstGenContext :=
  { ctx with valStack := val :: ctx.valStack }

def popVal (ctx : AstGenContext) : Option (AstGenContext × Inst) :=
  match ctx.valStack with
  | [] => none
  | val :: rest => some ({ ctx with valStack := rest }, val)

/-- `ctx.push_val(ctx.new_local_value().integer(value))` -/
def pushLocal (ctx : AstGenContext) (value : BitVec 32) : AstGenContext :=
  (ctx.newLocalValue (.integer value)).pushVal (.local ctx.nextInst)

def pushGlobal (ctx : AstGenContext) (value : BitVec 32) : AstGenContext :=
  (ctx.newGlobalValue (.integer value)).pushVal (.global ctx.nextGlobal)

def isCompleteBb (ctx : AstGenContext) : Option Bool := do
  let currBb ← ctx.currBb
  if ctx.layout.containsBb currBb then
    match (ctx.layout.insts currBb).getLast? with
    | none => some false
    | some inst => (ctx.insts inst).map InstKind.isTerminator
  else none

/-- Append the local instruction to the current block, or drop it when the block is complete. -/
def pushInst (ctx : AstGenContext) (inst : Nat) : Option AstGenContext := do
  let currBb ← ctx.currBb
  if ← ctx.isCompleteBb then
    some { ctx with insts := Function.update ctx.insts inst none }
  else
    let layout ← ctx.layout.insertInst currBb inst
    some { ctx with layout }

/-- `remove_layout_inst` in the current block. -/
def removeInst (ctx : AstGenContext) (inst : Nat) : Option AstGenContext := do
  let currBb ← ctx.currBb
  let _ ← ctx.insts inst
  let layout ← ctx.layout.removeInst currBb inst
  some { ctx with layout, insts := Function.update ctx.insts inst none }

/-- A new block with parameters for `i32` values; its handle is `ctx.nextBb`. -/
def newBasicBlock (ctx : AstGenContext) (params : Nat) : AstGenContext :=
  { ctx with
    insts := fun id =>
      if ctx.nextInst ≤ id ∧ id < ctx.nextInst + params then some (.blockArgRef (id - ctx.nextInst))
      else ctx.insts id
    nextInst := ctx.nextInst + params
    bbParams := Function.update ctx.bbParams ctx.nextBb
      ((List.range params).map fun index => .local (ctx.nextInst + index))
    nextBb := ctx.nextBb + 1 }

def registerBb (ctx : AstGenContext) (bb : BasicBlock) : Option AstGenContext :=
  (ctx.layout.pushBbBack bb).map fun layout => { ctx with layout }

/-- `remove_layout_basicblock` -/
def removeBb (ctx : AstGenContext) (bb : BasicBlock) : Option AstGenContext := do
  let layout ← ctx.layout.removeBasicblock bb
  if (ctx.layout.insts bb).all fun inst => (ctx.insts inst).isSome then
    some { ctx with
      layout
      insts := fun id => if id ∈ ctx.layout.insts bb then none else ctx.insts id }
  else none

/-- The current block returns a default value. -/
def returnDefault (ctx : AstGenContext) : Option AstGenContext :=
  match ctx.retTy with
  | .unit => (ctx.newLocalValue (.ret none)).pushInst ctx.nextInst
  | .int32 =>
    ((ctx.newLocalValue (.integer 0)).newLocalValue (.ret (some (.local ctx.nextInst)))).pushInst
      (ctx.nextInst + 1)
  | .float32 =>
    ((ctx.newLocalValue (.float 0)).newLocalValue (.ret (some (.local ctx.nextInst)))).pushInst
      (ctx.nextInst + 1)

/-- The block that was current, with the new context. -/
def setCurrBb (ctx : AstGenContext) (bb : BasicBlock) :
    Option (AstGenContext × Option BasicBlock) := do
  let unfinished ← if ctx.currBb.isSome then ctx.isCompleteBb.map (!·) else some false
  let ctx ← if unfinished then ctx.returnDefault else some ctx
  some ({ ctx with currBb := some bb }, ctx.currBb)

/-- A constant of the global arena is copied. -/
def asLocalConstVal (ctx : AstGenContext) : Inst → Option (AstGenContext × Inst)
  | .global id =>
    match ctx.globals id with
    | some (.integer value) => some (ctx.newLocalValue (.integer value), .local ctx.nextInst)
    | some (.float bits) => some (ctx.newLocalValue (.float bits), .local ctx.nextInst)
    | _ => none
  | .local id => some (ctx, .local id)

/-- Whether the value is not zero, as a value of the current function. -/
def truthyLocal (ctx : AstGenContext) (val : Inst) : Option (AstGenContext × Inst) := do
  match ← ctx.instKind val with
  | .integer value =>
    some (ctx.newLocalValue (.integer (Ir.truth (value != 0))), .local ctx.nextInst)
  | .binary op .. =>
    if op.isCompare then some (ctx, val) else notZero ctx val
  | _ => notZero ctx val
where
  notZero (ctx : AstGenContext) (val : Inst) : Option (AstGenContext × Inst) := do
    let cond := (ctx.newLocalValue (.integer 0)).newLocalValue
      (.binary .notEq val (.local ctx.nextInst))
    let cond ← cond.pushInst (ctx.nextInst + 1)
    some (cond, .local (ctx.nextInst + 1))

end AstGenContext

end AnonCompiler.Frontend.AstGen
