import AnonCompiler.Ir.Exec
import AnonCompiler.Ir.WellFormed
import AnonCompiler.Mir.ArithForms

/-!
# The lowering context

The part of `taki_mir/src/lower.rs` that instruction selection calls: registers for values,
constants shared by a block or a loop, and producers that are sunk into their only user.
A failed assertion is `none`.  The instructions are kept in the order in which they will run.
The moves of the shared constants come at the start of the block or in front of the loop,
when the block has been lowered, and so do not appear among them.
-/

set_option autoImplicit false

namespace AnonCompiler.Mir

open Ir

structure LowerContext where
  curInst : Option Inst
  nextVreg : Nat
  regMap : Inst → Option Reg
  /-- How often a value has been asked for. -/
  valueLoweredUse : Inst → Nat
  instSunk : List Inst
  currentLoop : Option Nat
  /-- The preheader of every loop that has one. -/
  preheader : Nat → Option BasicBlock
  loopConstMulti : List (Nat × Int)
  loopConstShared : Nat × Int → Option Reg
  loopEmissions : List (BasicBlock × Int × Reg)
  blockConstMulti : List Int
  blockConstShared : Int → Option Reg
  irInst : List ArithInst

abbrev LowerM := StateT LowerContext Option

namespace LowerContext

def emit (inst : ArithInst) : LowerM Unit :=
  modify fun ctx => { ctx with irInst := ctx.irInst ++ [inst] }

/-- The class of the register for a type. -/
def rcForType : Ty → Option RegClass
  | .int32 | .pointer _ | .string => some .int
  | .float32 => some .float
  | .vector .. => some .vector
  | _ => none

def alloc (cls : RegClass) : LowerM Reg := fun ctx =>
  some (⟨ctx.nextVreg, cls⟩, { ctx with nextVreg := ctx.nextVreg + 1 })

def allocTmp (ty : Ty) : LowerM Reg := do
  let cls ← StateT.lift (rcForType ty)
  alloc cls

def loopConstToReg (value gateOn : Int) : LowerM (Option Reg) := fun ctx =>
  match ctx.currentLoop with
  | none => some (none, ctx)
  | some loopIndex =>
    if (loopIndex, gateOn) ∉ ctx.loopConstMulti then some (none, ctx)
    else
      match ctx.loopConstShared (loopIndex, value) with
      | some shared => some (some shared, ctx)
      | none =>
        match ctx.preheader loopIndex with
        | none => some (none, ctx)
        | some preheader =>
          let shared : Reg := ⟨ctx.nextVreg, .int⟩
          some (some shared, { ctx with
            nextVreg := ctx.nextVreg + 1
            loopConstShared := Function.update ctx.loopConstShared (loopIndex, value) shared
            loopEmissions := ctx.loopEmissions ++ [(preheader, value, shared)] })

def constToReg (value gateOn : Int) : LowerM (Option Reg) := fun ctx =>
  if gateOn ∉ ctx.blockConstMulti then some (none, ctx)
  else
    match ctx.blockConstShared value with
    | some shared => some (some shared, ctx)
    | none =>
      let shared : Reg := ⟨ctx.nextVreg, .int⟩
      some (some shared, { ctx with
        nextVreg := ctx.nextVreg + 1
        blockConstShared := Function.update ctx.blockConstShared value shared })

/-- A constant shared by the loop, or else by the block. -/
def sharedConst (value gateOn : Int) : LowerM (Option Reg) := do
  match ← loopConstToReg value gateOn with
  | some shared => pure (some shared)
  | none => constToReg value gateOn

def rematerializeIfNeeded (ty : Ty) (kind : InstKind) (inst : Inst) (reg : Reg) : LowerM Reg :=
  match kind with
  | .integer value => do
      let reg ← allocTmp .int32
      emit (.loadImm .size32 reg (value.setWidth 64))
      pure reg
  | .float bits => do
      let tmp ← allocTmp .int32
      let reg ← allocTmp .float32
      emit (.loadImm .size32 tmp (bits.setWidth 64))
      emit (.fMov reg tmp)
      pure reg
  | .globalAlloc _ => do
      let reg ← allocTmp ty
      emit (.loadAddr reg inst)
      pure reg
  | .undef => do
      let reg ← allocTmp ty
      match ty with
      | .float32 => do
          let bits ← allocTmp .int32
          emit (.loadImm .size32 bits 0)
          emit (.fMov reg bits)
          pure reg
      | .int32 => do
          emit (.loadImm .size32 reg 0)
          pure reg
      | .pointer _ => do
          emit (.loadImm .size64 reg 0)
          pure reg
      | _ => fun _ => none
  | _ => pure reg

/-- The register of a value, with a new one when it has none yet. -/
def valueReg (ty : Ty) (inst : Inst) : LowerM Reg := fun ctx =>
  match ctx.regMap inst with
  | some reg => some (reg, ctx)
  | none => (allocTmp ty ctx).map fun (reg, ctx) =>
    (reg, { ctx with regMap := Function.update ctx.regMap inst reg })

section Arena

variable (P : Program) (F : FunctionData)

/-- Count one more use of a value that has not been sunk. -/
def countUse (inst : Inst) : LowerM Unit := fun ctx =>
  if inst ∈ ctx.instSunk then none
  else some ((), { ctx with
    valueLoweredUse := Function.update ctx.valueLoweredUse inst (ctx.valueLoweredUse inst + 1) })

/-- The constant of a value as the tables name it. -/
def constantKey : InstKind → Option Int
  | .integer value => some value.toInt
  | _ => none

def putValueInReg (inst : Inst) : LowerM Reg := do
  countUse inst
  let data ← StateT.lift (P.instData F inst)
  let shared ← match constantKey data.kind with
    | some value => sharedConst value value
    | none => pure none
  match shared with
  | some shared => pure shared
  | none => do
      let reg ← valueReg data.ty inst
      rematerializeIfNeeded data.ty data.kind inst reg

def resultReg (inst : Inst) : LowerM Reg := fun ctx => do
  let data ← P.instData F inst
  if data.ty = .unit then none
  else
    let reg ← ctx.regMap inst
    if reg.isVirtual then some (reg, ctx) else none

def hasSideEffectWhenLowering : InstKind → Bool
  | .call .. | .load _ | .store .. | .memZero .. | .ret _ | .tailCall .. => true
  | _ => false

/-- The kinds that may be sunk. -/
def isSinkable : InstKind → Bool
  | .binary .. | .cast _ | .getElemPtr .. | .alloc => true
  | _ => false

def canSinkPureSingleUseProducer (ctx : LowerContext) (producer consumer root : Inst) : Bool :=
  match P.instData F producer with
  | none => false
  | some data =>
    if producer = consumer ∨ ctx.curInst ≠ some root ∨ producer ∈ ctx.instSunk ∨
        ctx.valueLoweredUse producer ≠ 0 ∨ data.kind.isTerminator ∨
        hasSideEffectWhenLowering data.kind ∨ !isSinkable data.kind then false
    else F.usedBy producer = [consumer]

def sinkPureSingleUseProducer (producer consumer : Inst) : LowerM Bool := fun ctx =>
  if canSinkPureSingleUseProducer P F ctx producer consumer consumer then
    some (true, { ctx with instSunk := producer :: ctx.instSunk })
  else some (false, ctx)

end Arena

end LowerContext

end AnonCompiler.Mir
