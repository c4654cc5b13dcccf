import Mathlib.Data.List.Basic
import Mathlib.Logic.Function.Basic

/-!
# RaanaIR

The data model of `raana_ir/src/ir`.  A function owns an arena of instructions
and of blocks, and a layout: the ordered blocks with their ordered
instructions.  Values are instructions.  Constants live in the arena only, the
parameters of a block are instructions of kind `blockArgRef`, and the parameters
of a function are the parameters of its entry block.

The hash maps of the source are partial functions.  The set `used_by` the source
keeps beside every instruction is computed from the arena here.  Names of
instructions and blocks, which only the printers read, are left out.
-/

set_option autoImplicit false

namespace AnonCompiler.Ir

/-- Instruction handle; handles of global instructions start at `globalIdStart`. -/
abbrev Inst := Nat

abbrev BasicBlock := Nat

/-- Function handle: the position in the function arena. -/
abbrev Function := Nat

def globalIdStart : Nat := 0x40000000

def Inst.isGlobal (inst : Inst) : Bool := globalIdStart ≤ inst

inductive Ty where
  | unit
  | int32
  | float32
  | string
  | array (base : Ty) (len : Nat)
  | vector (elem : Ty) (lanes : Nat)
  | pointer (base : Ty)
  | argList
deriving DecidableEq, Repr

def pointerSize : Nat := 8

namespace Ty

def size : Ty → Nat
  | .argList | .unit => 0
  | .int32 | .float32 => 4
  | .array base len => base.size * len
  | .vector elem lanes => elem.size * lanes
  | .string | .pointer _ => pointerSize

def isPointer : Ty → Bool
  | .pointer _ => true
  | _ => false

def isVector : Ty → Bool
  | .vector .. => true
  | _ => false

/-- The type a pointer points to, and the element type of an array: what one
index of a `getElemPtr` steps into. -/
def element : Ty → Option Ty
  | .pointer base => some base
  | .array base _ => some base
  | _ => none

end Ty

inductive BinaryOp where
  | add | sub | mul | div | rem
  | notEq | eq | gt | lt | ge | le
  | and | or | xor | shl | shr | sar
  | min | max
deriving DecidableEq, Repr

def BinaryOp.isCompare : BinaryOp → Bool
  | .notEq | .eq | .gt | .lt | .ge | .le => true
  | _ => false

/-- The operators without a result for a zero on the right. -/
def BinaryOp.divides : BinaryOp → Bool
  | .div | .rem => true
  | _ => false

inductive MemZeroLen where
  | const (bytes : Nat)
  | value (inst : Inst)
deriving DecidableEq, Repr

inductive InstKind where
  | undef
  | zeroInit
  | integer (value : BitVec 32)
  | float (bits : BitVec 32)
  | binary (op : BinaryOp) (lhs rhs : Inst)
  | select (cond ifTrue ifFalse : Inst)
  | jump (target : BasicBlock) (args : List Inst)
  | branch (cond : Inst) (tTarget : BasicBlock) (tArgs : List Inst) (fTarget : BasicBlock)
      (fArgs : List Inst)
  | cast (src : Inst)
  | ret (value : Option Inst)
  | getElemPtr (base : Inst) (offsets : List Inst)
  | alloc
  | globalAlloc (init : Inst)
  | store (src dest : Inst)
  | memZero (dest : Inst) (byteLen : MemZeroLen)
  | load (src : Inst)
  | call (callee : Function) (args : List Inst)
  | tailCall (callee : Function) (args : List Inst)
  | blockArgRef (index : Nat)
  | aggregate (value : List Inst)
  | fma (acc lhs rhs : Inst)
  | vectorSplat (src : Inst)
  | vectorExtractElement (src index : Inst)
  | vectorInsertElement (vector element index : Inst)
  | vectorReduce (src : Inst)
deriving DecidableEq, Repr

namespace InstKind

/-- The instructions a kind reads, in the order of the source's iterator. -/
def instUsage : InstKind → List Inst
  | .undef | .zeroInit | .integer _ | .float _ | .alloc | .blockArgRef _ => []
  | .binary _ lhs rhs => [lhs, rhs]
  | .select cond ifTrue ifFalse => [cond, ifTrue, ifFalse]
  | .jump _ args => args
  | .branch cond _ tArgs _ fArgs => cond :: (tArgs ++ fArgs)
  | .cast src => [src]
  | .ret value => value.toList
  | .getElemPtr base offsets => base :: offsets
  | .globalAlloc init => [init]
  | .store src dest => [src, dest]
  | .memZero dest (.const _) => [dest]
  | .memZero dest (.value len) => [dest, len]
  | .load src => [src]
  | .call _ args => args
  | .tailCall _ args => args
  | .aggregate value => value
  | .fma acc lhs rhs => [acc, lhs, rhs]
  | .vectorSplat src => [src]
  | .vectorExtractElement src index => [src, index]
  | .vectorInsertElement vector element index => [vector, element, index]
  | .vectorReduce src => [src]

/-- The blocks a terminator goes to, one entry for each arm. -/
def bbUsage : InstKind → List BasicBlock
  | .jump target _ => [target]
  | .branch _ tTarget _ fTarget _ => [tTarget, fTarget]
  | _ => []

/-- Writes memory or calls a function, and goes on after that. -/
def hasEffect : InstKind → Bool
  | .store .. | .memZero .. | .call .. => true
  | _ => false

def isTerminator : InstKind → Bool
  | .jump .. | .branch .. | .ret _ | .tailCall .. => true
  | _ => false

/-- Put other operands and other targets in place of those named (`remap_refs`). -/
def remapRefs (mapInst : Inst → Inst) (mapBlock : BasicBlock → BasicBlock) : InstKind → InstKind
  | .binary op lhs rhs => .binary op (mapInst lhs) (mapInst rhs)
  | .select cond ifTrue ifFalse => .select (mapInst cond) (mapInst ifTrue) (mapInst ifFalse)
  | .jump target args => .jump (mapBlock target) (args.map mapInst)
  | .branch cond tTarget tArgs fTarget fArgs =>
    .branch (mapInst cond) (mapBlock tTarget) (tArgs.map mapInst) (mapBlock fTarget)
      (fArgs.map mapInst)
  | .cast src => .cast (mapInst src)
  | .ret value => .ret (value.map mapInst)
  | .getElemPtr base offsets => .getElemPtr (mapInst base) (offsets.map mapInst)
  | .globalAlloc init => .globalAlloc (mapInst init)
  | .store src dest => .store (mapInst src) (mapInst dest)
  | .memZero dest (.const bytes) => .memZero (mapInst dest) (.const bytes)
  | .memZero dest (.value len) => .memZero (mapInst dest) (.value (mapInst len))
  | .load src => .load (mapInst src)
  | .call callee args => .call callee (args.map mapInst)
  | .tailCall callee args => .tailCall callee (args.map mapInst)
  | .aggregate value => .aggregate (value.map mapInst)
  | .fma acc lhs rhs => .fma (mapInst acc) (mapInst lhs) (mapInst rhs)
  | .vectorSplat src => .vectorSplat (mapInst src)
  | .vectorExtractElement src index => .vectorExtractElement (mapInst src) (mapInst index)
  | .vectorInsertElement vector element index =>
    .vectorInsertElement (mapInst vector) (mapInst element) (mapInst index)
  | .vectorReduce src => .vectorReduce (mapInst src)
  | kind => kind

theorem remapRefs_id (kind : InstKind) : kind.remapRefs id id = kind := by
  cases kind with
  | memZero dest byteLen => cases byteLen <;> rfl
  | ret value => cases value <;> rfl
  | _ => simp [remapRefs]

end InstKind

structure InstData where
  ty : Ty
  kind : InstKind
deriving DecidableEq, Repr

structure FunctionData where
  retTy : Ty
  name : String
  paramsTy : List Ty
  params : List Inst
  layout : List (BasicBlock × List Inst)
  insts : Inst → Option InstData
  nextInst : Nat
  blockParams : BasicBlock → List Inst
  nextBlock : Nat

namespace FunctionData

def entryBlock (F : FunctionData) : Option BasicBlock := F.layout.head?.map Prod.fst

/-- The instructions the layout places in a block. -/
def blockInsts (F : FunctionData) (bb : BasicBlock) : Option (List Inst) := F.layout.lookup bb

def blocks (F : FunctionData) : List BasicBlock := F.layout.map Prod.fst

/-- All instructions of the layout, block by block. -/
def layoutInsts (F : FunctionData) : List Inst := F.layout.flatMap Prod.snd

/-- The block whose instructions contain `inst`. -/
def parentBlock (F : FunctionData) (inst : Inst) : Option BasicBlock :=
  (F.layout.find? fun entry => inst ∈ entry.2).map Prod.fst

def kind (F : FunctionData) (inst : Inst) : Option InstKind := (F.insts inst).map InstData.kind

/-- The instructions of the arena that read `inst`. -/
def usedBy (F : FunctionData) (inst : Inst) : List Inst :=
  (List.range F.nextInst).filter fun user =>
    match F.insts user with
    | some data => inst ∈ data.kind.instUsage
    | none => false

/-- The terminators of the arena that name the block. -/
def bbUsedBy (F : FunctionData) (bb : BasicBlock) : List Inst :=
  (List.range F.nextInst).filter fun user =>
    match F.insts user with
    | some data => bb ∈ data.kind.bbUsage
    | none => false

end FunctionData

structure Program where
  funcs : List FunctionData
  functionLayout : List Function
  globals : Inst → Option InstData
  globalLayout : List Inst
  mainFunction : Option Function

namespace Program

def funcData (P : Program) (f : Function) : Option FunctionData := P.funcs[f]?

/-- The data of an instruction as a function of the program sees it. -/
def instData (P : Program) (F : FunctionData) (inst : Inst) : Option InstData :=
  if inst.isGlobal then P.globals inst else F.insts inst

end Program

/-- The kind of an instruction as a function of the program sees it. -/
def kindIn (P : Program) (F : FunctionData) (inst : Inst) : Option InstKind :=
  (P.instData F inst).map InstData.kind

end AnonCompiler.Ir
