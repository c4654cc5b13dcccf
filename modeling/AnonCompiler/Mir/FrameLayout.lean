import Mathlib.Data.List.Sort
import AnonCompiler.Ir.Syntax
import AnonCompiler.Lib.Areas
import AnonCompiler.Mir.FrameLegal
import AnonCompiler.Mir.ParallelMoves

/-!
# The frame of a function

The frame as `taki_mir/src/abi.rs` lays it out, with the AArch64 values of
`anon_armv8/src/abi.rs`, and the prologue and the epilogue.  From the stack pointer upwards
the frame holds outgoing arguments, stack objects, spill slots, the registers that are saved,
and the frame pointer with the link register.

Sizes are `u32`.  While a function is lowered they are cast and summed with the plain
operators; the layout is then computed with checked sums.  `none` is a panic or an error.
-/

set_option autoImplicit false

namespace AnonCompiler.Mir

open AnonCompiler.Ir AnonCompiler.Lib

/-! ## Registers -/

def RegClass.code : RegClass → Nat
  | .int => 0
  | .float => 1
  | .vector => 2

/-- A physical register. -/
structure PReg where
  hwEnc : BitVec 6
  regClass : RegClass
deriving DecidableEq, Repr

namespace PReg

def index (p : PReg) : Nat := p.regClass.code * 64 + p.hwEnc.toNat

/-- No register has the class bits `3`. -/
def fromIndex (index : Nat) : Option PReg :=
  let hwEnc := BitVec.ofNat 6 index
  match index / 64 % 4 with
  | 0 => some ⟨hwEnc, .int⟩
  | 1 => some ⟨hwEnc, .float⟩
  | 2 => some ⟨hwEnc, .vector⟩
  | _ => none

/-- `Reg::from_physical_reg` -/
def reg (p : PReg) : Reg := ⟨p.index, p.regClass⟩

/-- `is_callee_saved` of `regs.rs`. -/
def isCalleeSaved (p : PReg) : Bool :=
  match p.regClass with
  | .int => 19 ≤ p.hwEnc.toNat && p.hwEnc.toNat ≤ 28
  | .float | .vector => 8 ≤ p.hwEnc.toNat && p.hwEnc.toNat ≤ 15

end PReg

def Allocation.asReg (a : Allocation) : Option PReg :=
  if a.kind = .reg then PReg.fromIndex a.index else .none

/-- `Output`, with the two ends of every edit. -/
structure AllocatorOutput where
  numSpillslots : Nat
  edits : List (Allocation × Allocation)
  allocs : List Allocation
deriving Repr

/-! ## Sizes -/

/-- The result of a plain operator on unsigned integers. -/
def wrapping (checks : Bool) (bits n : Nat) : Option Nat :=
  if n < 2 ^ bits then some n else if checks then none else some (n % 2 ^ bits)

/-- A `checked_` operator on `u32`. -/
def checked (n : Nat) : Option Nat := if n < 2 ^ 32 then some n else none

/-- `u32::next_multiple_of` -/
def nextMultipleOf (checks : Bool) (n align : Nat) : Option Nat :=
  if n % align = 0 then some n else wrapping checks 32 (n + (align - n % align))

/-- `Type::size`, a `usize`. -/
def sizeOfTy (checks : Bool) : Ty → Option Nat
  | .argList | .unit => some 0
  | .int32 | .float32 => some 4
  | .array base len => (sizeOfTy checks base).bind fun size => wrapping checks 64 (size * len)
  | .vector elem lanes => (sizeOfTy checks elem).bind fun size => wrapping checks 64 (size * lanes)
  | .string | .pointer _ => some pointerSize

def stackAlign : Nat := 16

def wordBytes : Nat := 8

def spillUnitBytes : Nat := 8

def spillslotSize : RegClass → Nat
  | .int | .float => 1
  | .vector => 2

/-- `(n + align - 1) & !(align - 1)` for a power of two. -/
def alignUp (n align : Nat) : Nat := (n + align - 1) / align * align

/-! ## What lowering asks for -/

structure CalleeAbi where
  totalStackslotsSize : Nat
  sizedStackArgSize : Nat
  outgoingArgSize : Nat
  hasCalls : Bool
  allocToSs : Inst → Option Nat

namespace CalleeAbi

variable (checks : Bool) (abi : CalleeAbi)

def new (sizedStackArgSize : Nat) : CalleeAbi := ⟨0, sizedStackArgSize, 0, false, fun _ => none⟩

def allocateStackslot (ty : Ty) : Option (Nat × CalleeAbi) := do
  let ret := abi.totalStackslotsSize
  let size := (← sizeOfTy checks ty) % 2 ^ 32
  let actualSize ← nextMultipleOf checks size stackAlign
  let total ← wrapping checks 32 (abi.totalStackslotsSize + actualSize)
  some (ret, { abi with totalStackslotsSize := total })

def allocStackslotOrGet (alloc : Inst) (ty : Ty) : Option (Nat × CalleeAbi) :=
  match abi.allocToSs alloc with
  | some offset => some (offset, abi)
  | none => do
      let (offset, abi) ← abi.allocateStackslot checks ty
      some (offset, { abi with allocToSs := Function.update abi.allocToSs alloc (some offset) })

def setOutgoingArgSize (size : Nat) : CalleeAbi :=
  { abi with outgoingArgSize := max abi.outgoingArgSize (size % 2 ^ 32) }

def setHasCalls : CalleeAbi := { abi with hasCalls := true }

end CalleeAbi

/-- The calls that lowering makes.  An instruction always allocates the same type. -/
inductive FrameRequest where
  | stackslot (ty : Ty)
  | alloc (alloc : Inst)
  | outgoingArgs (size : Nat)
  | hasCalls
deriving Repr

/-- The state after some calls, and the stack objects with the offsets they were given. -/
structure Lowered where
  abi : CalleeAbi
  slots : List (Nat × Ty)

namespace Lowered

variable (checks : Bool) (allocTy : Inst → Ty)

def request (l : Lowered) : FrameRequest → Option Lowered
  | .stackslot ty => do
      let (offset, abi) ← l.abi.allocateStackslot checks ty
      some ⟨abi, l.slots ++ [(offset, ty)]⟩
  | .alloc alloc => do
      let (offset, abi) ← l.abi.allocStackslotOrGet checks alloc (allocTy alloc)
      let isNew := (l.abi.allocToSs alloc).isNone
      some ⟨abi, l.slots ++ if isNew then [(offset, allocTy alloc)] else []⟩
  | .outgoingArgs size => some { l with abi := l.abi.setOutgoingArgSize size }
  | .hasCalls => some { l with abi := l.abi.setHasCalls }

def requests (sizedStackArgSize : Nat) (calls : List FrameRequest) : Option Lowered :=
  calls.foldlM (request checks allocTy) ⟨.new sizedStackArgSize, []⟩

end Lowered

/-! ## The layout -/

structure FrameLayout where
  calleeSaved : List PReg
  setupAreaSize : Nat
  clobberSize : Nat
  spillSize : Nat
  stackslotsSize : Nat
  outgoingArgsSize : Nat
  totalSize : Nat
deriving DecidableEq, Repr

/-- `Vec::dedup` -/
def dedupRegs : List PReg → List PReg
  | [] => []
  | [p] => [p]
  | p :: next :: rest => if p = next then dedupRegs (next :: rest) else p :: dedupRegs
      (next :: rest)

/-- The registers named in the output that are callee-saved, in the order of their indices. -/
def AllocatorOutput.calleeSaved (output : AllocatorOutput) : List PReg :=
  let named := output.allocs.filterMap Allocation.asReg ++
    output.edits.flatMap fun (src, dst) => [src.asReg, dst.asReg].filterMap id
  dedupRegs ((named.filter PReg.isCalleeSaved).insertionSort fun p q => p.index ≤ q.index)

def clobberStep (offset : Nat) (p : PReg) : Option Nat := do
  let size ← checked (spillslotSize p.regClass * spillUnitBytes)
  let aligned ← (if wordBytes < size then
    (checked (offset + (size - 1))).map fun _ => alignUp offset size else some offset)
  checked (aligned + size)

/-- The spill area as `lower` of `lib.rs` asks for it. -/
def AllocatorOutput.spillSize (output : AllocatorOutput) : Option Nat := do
  checked ((← checked output.numSpillslots) * spillUnitBytes)

def CalleeAbi.computeFrameLayout (abi : CalleeAbi) (spillSize : Nat) (output : AllocatorOutput) :
    Option FrameLayout := do
  let calleeSaved := output.calleeSaved
  let clobberSize ← calleeSaved.foldlM clobberStep 0
  let setupAreaSize := if abi.hasCalls ∨ 0 < abi.sizedStackArgSize ∨ 0 < abi.totalStackslotsSize ∨
      0 < clobberSize ∨ 0 < spillSize then 2 * wordBytes else 0
  let total ← checked (setupAreaSize + clobberSize)
  let total ← checked (total + spillSize)
  let total ← checked (total + abi.totalStackslotsSize)
  let total ← checked (total + abi.outgoingArgSize)
  let total ← checked (total + (stackAlign - 1))
  some ⟨calleeSaved, setupAreaSize, clobberSize, spillSize, abi.totalStackslotsSize,
    abi.outgoingArgSize, total / stackAlign * stackAlign⟩

/-- The frame after lowering and register allocation. -/
def Lowered.frame (l : Lowered) (output : AllocatorOutput) : Option FrameLayout := do
  l.abi.computeFrameLayout (← output.spillSize) output

namespace FrameLayout

variable (frame : FrameLayout)

def spillBaseBytes : Option Nat := checked (frame.outgoingArgsSize + frame.stackslotsSize)

def spillRegionEnd : Option Nat := do checked ((← frame.spillBaseBytes) + frame.spillSize)

def spillSlotOffset (slot : Nat) : Option Nat := do
  let base ← frame.spillBaseBytes
  let limit ← frame.spillRegionEnd
  let offset := slot * spillUnitBytes + base
  if offset + spillUnitBytes ≤ limit then some offset else none

end FrameLayout

/-! ## The registers that are saved -/

def clobberSlotSize (p : PReg) : Nat :=
  match p.regClass with
  | .vector => 16
  | _ => 8

def clobberMemoryType (p : PReg) : MemoryType :=
  match p.regClass with
  | .float => .f64
  | .vector => .vec128
  | _ => .i64

/-- The slots of the registers, from the base downwards. -/
def clobberSlots (base : Int) : Nat → List PReg → List (PReg × Int)
  | _, [] => []
  | offset, p :: rest =>
    let size := clobberSlotSize p
    let offset := (if 8 < size then alignUp offset size else offset) + size
    (p, base - offset) :: clobberSlots base offset rest

def FrameLayout.clobberSlots (frame : FrameLayout) : List (PReg × Int) :=
  Mir.clobberSlots (frame.totalSize - frame.setupAreaSize : Nat) 0 frame.calleeSaved

/-! ## Prologue and epilogue -/

structure SImm7Scaled where
  value : Int
  accessSize : Nat
  valid : -64 ≤ value ∧ value ≤ 63
deriving DecidableEq, Repr

def SImm7Scaled.new (value : Int) (accessSize : Nat) : Option SImm7Scaled :=
  if accessSize ∉ [4, 8, 16] ∨ value.tmod accessSize ≠ 0 then none
  else if h : -64 ≤ value.tdiv accessSize ∧ value.tdiv accessSize ≤ 63 then
    some ⟨value.tdiv accessSize, accessSize, h⟩
  else none

def SImm7Scaled.byteOffset (offset : SImm7Scaled) : Int := offset.value * offset.accessSize

inductive PairAMode where
  | signedOffset (base : Reg) (offset : SImm7Scaled)
  | preIndex (base : Reg) (offset : SImm7Scaled)
  | postIndex (base : Reg) (offset : SImm7Scaled)
deriving DecidableEq, Repr

/-- The instructions of a prologue and an epilogue. -/
inductive SaveInst where
  | inst (i : FrameInst)
  | storePair (ty : MemoryType) (src1 src2 : Reg) (addr : PairAMode)
  | loadPair (ty : MemoryType) (dst1 dst2 : Reg) (addr : PairAMode)
  | aluRRRExtend (op : AluOp) (size : OperandSize) (dst lhs rhs : Reg) (extend : ExtendOp)
      (shift : Nat)
deriving DecidableEq, Repr

def lr : Nat := 30

def appendSpAdjust (amount : Int) : Option (List SaveInst) :=
  if amount = 0 then some []
  else
    let abs := BitVec.ofNat 64 amount.natAbs
    let op := if amount < 0 then AluOp.sub else AluOp.add
    match Imm12.maybeFromU64 abs with
    | some imm => some [.inst (.aluRRImm12 op .size64 stackReg stackReg imm)]
    | none => do
        let insts ← materializeIntegerConstant abs .size64 (intReg 14)
        some (insts.map .inst ++ [.aluRRRExtend op .size64 stackReg stackReg (intReg 14) .uxtx 0])

/-- The code for the slots in order.  Two integer registers whose slots touch are paired, the
later one, which has the lower address, first. -/
def clobberCode (single : PReg → Int → SaveInst) (pair : PReg → PReg → SImm7Scaled → SaveInst) :
    List (PReg × Int) → List SaveInst
  | [] => []
  | [(p, addr)] => [single p addr]
  | (p, addr) :: (next, nextAddr) :: rest =>
    match if clobberMemoryType p = .i64 ∧ clobberMemoryType next = .i64 ∧ addr - nextAddr = 8
      then SImm7Scaled.new nextAddr 8 else none with
    | some offset => pair next p offset :: clobberCode single pair rest
    | none => single p addr :: clobberCode single pair ((next, nextAddr) :: rest)

namespace FrameLayout

variable (frame : FrameLayout)

def genPrologueFrameSetup : Option (List SaveInst) := do
  let push ← (if frame.setupAreaSize ≠ 0 then
    (SImm7Scaled.new (-16) 8).map fun offset =>
      [.storePair .i64 (intReg fp) (intReg lr) (.preIndex stackReg offset)] else some [])
  let adjust ← appendSpAdjust (-((frame.totalSize : Int) - frame.setupAreaSize))
  let setFp ← (if frame.setupAreaSize ≠ 0 then
    appendAddConstant (intReg fp) stackReg (BitVec.ofNat 64 frame.totalSize) else some [])
  some (push ++ adjust ++ setFp.map .inst)

def genEpilogueFrameRestore : Option (List SaveInst) := do
  let adjust ← appendSpAdjust ((frame.totalSize : Int) - frame.setupAreaSize)
  let pop ← (if frame.setupAreaSize ≠ 0 then
    (SImm7Scaled.new 16 8).map fun offset =>
      [.loadPair .i64 (intReg fp) (intReg lr) (.postIndex stackReg offset)] else some [])
  some (adjust ++ pop)

def genClobberSave : List SaveInst :=
  clobberCode
    (fun p addr => .inst (.store (clobberMemoryType p) p.reg (.spOffset (BitVec.ofInt 64 addr))))
    (fun low high offset => .storePair .i64 low.reg high.reg (.signedOffset stackReg offset))
    frame.clobberSlots

def genClobberRestore : List SaveInst :=
  clobberCode
    (fun p addr => .inst (.load (clobberMemoryType p) p.reg (.spOffset (BitVec.ofInt 64 addr))))
    (fun low high offset => .loadPair .i64 low.reg high.reg (.signedOffset stackReg offset))
    frame.clobberSlots

def genPrologue : Option (List SaveInst) := do
  some ((← frame.genPrologueFrameSetup) ++ frame.genClobberSave)

def genEpilogue : Option (List SaveInst) := do
  some (frame.genClobberRestore ++ (← frame.genEpilogueFrameRestore))

end FrameLayout

/-! ## Emission -/

def SaveInst.legalize (checks : Bool) (frame : FrameLayout) : SaveInst → Option (List SaveInst)
  | .inst i =>
    (legalizeInst checks (BitVec.ofNat 32 frame.outgoingArgsSize) i).map (·.map .inst)
  | i => some [i]

/-- A vector register and the float register of its number have one name. -/
def Reg.named (r : Reg) : Reg :=
  match r.regClass with
  | .vector => ⟨r.vreg - 64, .float⟩
  | _ => r

def RegOrZr.named : RegOrZr → RegOrZr
  | .reg r => .reg r.named
  | .zr => .zr

def AMode.named : AMode → AMode
  | .reg base => .reg base.named
  | .unsignedOffset base offset => .unsignedOffset base.named offset
  | .signedOffset base offset => .signedOffset base.named offset
  | .regOffset base index => .regOffset base.named index.named
  | .scaledRegOffset base index shift => .scaledRegOffset base.named index.named shift
  | .extendedRegOffset base index extend shift =>
    .extendedRegOffset base.named index.named extend shift
  | addr => addr

def FrameInst.named : FrameInst → FrameInst
  | .stackAddr dst addr => .stackAddr dst.named addr.named
  | .load ty dst addr => .load ty dst.named addr.named
  | .store ty src addr => .store ty src.named addr.named
  | .aluRRR op size dst lhs rhs => .aluRRR op size dst.named lhs.named rhs.named
  | .aluRRImm12 op size dst src imm => .aluRRImm12 op size dst.named src.named imm
  | .movPhys size dst src => .movPhys size dst.named src.named
  | .constant size dst step => .constant size dst.named step
  | .other op => .other op

def PairAMode.named : PairAMode → PairAMode
  | .signedOffset base offset => .signedOffset base.named offset
  | .preIndex base offset => .preIndex base.named offset
  | .postIndex base offset => .postIndex base.named offset

def SaveInst.named : SaveInst → SaveInst
  | .inst i => .inst i.named
  | .storePair ty src1 src2 addr => .storePair ty src1.named src2.named addr.named
  | .loadPair ty dst1 dst2 addr => .loadPair ty dst1.named dst2.named addr.named
  | .aluRRRExtend op size dst lhs rhs extend shift =>
    .aluRRRExtend op size dst.named lhs.named rhs.named extend shift

/-- `emit_legalized`, one instruction after the other. -/
def emitLegalized (checks : Bool) (frame : FrameLayout) (insts : List SaveInst) :
    Option (List SaveInst) :=
  (insts.mapM (SaveInst.legalize checks frame)).map fun codes => codes.flatten.map SaveInst.named

/-! ## The machine -/

namespace PairAMode

def base : PairAMode → Reg
  | .signedOffset base _ | .preIndex base _ | .postIndex base _ => base

/-- The base with the offset added. -/
def sum (s : FrameState) : PairAMode → BitVec 64
  | .signedOffset base offset | .preIndex base offset | .postIndex base offset =>
    s.word base + BitVec.ofInt 64 offset.byteOffset

def address (s : FrameState) : PairAMode → BitVec 64
  | .postIndex base _ => s.word base
  | addr => addr.sum s

/-- The base is written by the indexed forms. -/
def writeBack (s t : FrameState) : PairAMode → FrameState
  | .signedOffset _ _ => t
  | addr => t.set addr.base (@Value.written .size64 (addr.sum s))

end PairAMode

def SaveInst.exec (s : FrameState) : SaveInst → Option FrameState
  | .inst i => i.exec s
  | .storePair ty src1 src2 addr =>
    let a := addr.address s
    let mem := s.mem.write a ty.byteSize (s.regs src1)
    let mem := mem.write (a + BitVec.ofNat 64 ty.byteSize) ty.byteSize (s.regs src2)
    some (addr.writeBack s { s with mem })
  | .loadPair ty dst1 dst2 addr =>
    let a := addr.address s
    let t := s.set dst1 (s.mem.read a ty.byteSize)
    let t := t.set dst2 (s.mem.read (a + BitVec.ofNat 64 ty.byteSize) ty.byteSize)
    some (addr.writeBack s t)
  | .aluRRRExtend op size dst lhs rhs extend shift =>
    let right : BitVec 64 := extend.eval (s.word rhs) <<< shift
    some (s.set dst (Value.written (op.eval ((s.regs lhs).read size) (right.setWidth size.bits))))

def execSaves (s : FrameState) (code : List SaveInst) : Option FrameState :=
  code.foldlM SaveInst.exec s

end AnonCompiler.Mir
