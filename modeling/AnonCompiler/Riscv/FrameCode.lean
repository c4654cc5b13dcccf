import AnonCompiler.Mir.FrameLegal
import AnonCompiler.Mir.ParallelMovesCorrect

/-!
# Spills and frame addresses on RISC-V

What `finalize_for_emission` of `taki_mir/src/vcode.rs` makes of the allocator's edits and of
the frame pseudo instructions with the functions of `uika_riscv/src/abi.rs`.  A load or a
store reaches 2 KiB from its base; an offset beyond that is put into x30, and the address
into x31, which is also the register that the allocator moves values through.

The stack pointer is x2.  Sizes are `u32`, given as natural numbers; `none` is a failed
`expect` or `assert`.  The backend has no vector values.
-/

set_option autoImplicit false

namespace AnonCompiler.Riscv

open Mir (Bytes Value)

/-! ## Registers and instructions -/

inductive RegClass where
  | int
  | float
deriving DecidableEq, Repr

structure PReg where
  hwEnc : Fin 32
  cls : RegClass
deriving DecidableEq, Repr

def xReg (enc : Fin 32) : PReg := ⟨enc, .int⟩

def fReg (enc : Fin 32) : PReg := ⟨enc, .float⟩

def stackReg : PReg := xReg 2

def fpReg : PReg := xReg 8

def spilltmpReg : PReg := xReg 31

def spilltmpReg2 : PReg := xReg 30

/-- The registers `create_reg_environment` gives to the allocator. -/
def allocatable : List PReg :=
  [10, 11, 12, 13, 14, 15, 5, 6, 7, 16, 17, 28, 29, 9, 18, 19, 20, 21, 22, 23, 24, 25, 26,
    27].map xReg ++
  [10, 11, 12, 13, 14, 15, 0, 1, 2, 3, 4, 5, 6, 7, 16, 17, 28, 29, 30, 31, 8, 9, 18, 19, 20, 21,
    22, 23, 24, 25, 26, 27].map fReg

/-- `scratch_by_class` -/
def scratchByClass : RegClass → Option PReg
  | .int => some spilltmpReg
  | .float => none

/-- The registers an edit may name. -/
def usable : List PReg := allocatable ++ (scratchByClass .int).toList

inductive LoadOP where
  | lw
  | ld
  | flw
deriving DecidableEq, Repr

inductive StoreOP where
  | sw
  | sd
  | fsw
deriving DecidableEq, Repr

/-- The types of the values in registers. -/
inductive LoweredType where
  | i32
  | i64
  | f32
deriving DecidableEq, Repr

def LoadOP.ofType : LoweredType → LoadOP
  | .i32 => .lw
  | .i64 => .ld
  | .f32 => .flw

def StoreOP.ofType : LoweredType → StoreOP
  | .i32 => .sw
  | .i64 => .sd
  | .f32 => .fsw

/-- `-2048..2048` -/
def InRange12 (value : Int) : Prop := -2048 ≤ value ∧ value < 2048

instance decidableInRange12 (value : Int) : Decidable (InRange12 value) :=
  inferInstanceAs (Decidable (_ ∧ _))

structure Imm12 where
  value : Int
  valid : InRange12 value
deriving DecidableEq, Repr

def Imm12.fromI32 (value : Int) : Option Imm12 :=
  if h : InRange12 value then some ⟨value, h⟩ else none

/-- Without the labels. -/
inductive AMode where
  | spOffset (offset : Int)
  | fpOffset (offset : Int)
  | regOffset (base : PReg) (offset : Int)
  | slotOffset (offset : Int)
  | incomingArg (offset : Int)
  | outgoingArg (offset : Int)
deriving DecidableEq, Repr

/-- The instructions that an edit or a frame pseudo turns into, and the pseudos.  `aluRRR` and
`aluRRImm12` are additions here. -/
inductive MInst where
  | aluRRR (rd rs1 rs2 : PReg)
  | aluRRImm12 (rd rs : PReg) (imm : Imm12)
  | loadImm (rd : PReg) (value : BitVec 64)
  | loadWord (rd : PReg) (op : LoadOP) (addr : AMode)
  | storeWord (rs : PReg) (op : StoreOP) (addr : AMode)
  | stackAddr (rd : PReg) (addr : AMode)
  | mov (src dst : PReg)
deriving DecidableEq, Repr

/-! ## The frame -/

structure FrameLayout where
  spillSize : Nat
  stackslotsSize : Nat
  outgoingArgsSize : Nat
deriving DecidableEq, Repr

def spillUnitBytes : Nat := 8

namespace FrameLayout

variable (frame : FrameLayout)

/-- `checked_add` of `u32` -/
def checkedAdd (a b : Nat) : Option Nat := if a + b < 2 ^ 32 then some (a + b) else none

def spillBaseBytes : Option Nat := checkedAdd frame.outgoingArgsSize frame.stackslotsSize

def spillRegionEnd : Option Nat := do checkedAdd (← frame.spillBaseBytes) frame.spillSize

def spillSlotOffset (slot : Nat) : Option Int := do
  let base ← frame.spillBaseBytes
  let limit ← frame.spillRegionEnd
  let offset := slot * spillUnitBytes + base
  if offset + spillUnitBytes ≤ limit then some offset else none

end FrameLayout

/-! ## The code -/

namespace AMode

/-- The offset and the base of an address relative to the stack or the frame pointer. -/
def offsetAndBase : AMode → Option (Int × PReg)
  | .spOffset offset | .slotOffset offset | .outgoingArg offset => some (offset, stackReg)
  | .fpOffset offset | .incomingArg offset => some (offset, fpReg)
  | .regOffset .. => none

def normalizeImm12 (addr : AMode) : AMode × List MInst :=
  match addr.offsetAndBase with
  | none => (addr, [])
  | some (offset, base) =>
    if InRange12 offset then (addr, [])
    else (.regOffset spilltmpReg 0,
      [.loadImm spilltmpReg2 (BitVec.ofInt 64 offset), .aluRRR spilltmpReg base spilltmpReg2])

end AMode

def genSpillStore (src : PReg) (spillOff : Int) (ty : LoweredType) : List MInst :=
  let (addr, extras) := (AMode.spOffset spillOff).normalizeImm12
  extras ++ [.storeWord src (.ofType ty) addr]

def genSpillLoad (spillOff : Int) (dst : PReg) (ty : LoweredType) : List MInst :=
  let (addr, extras) := (AMode.spOffset spillOff).normalizeImm12
  extras ++ [.loadWord dst (.ofType ty) addr]

def genStackToStackMove (src dst : Int) : List MInst :=
  genSpillLoad src spilltmpReg .i64 ++ genSpillStore spilltmpReg dst .i64

def genMove (src dst : PReg) : MInst := .mov src dst

def legalizeSlotAMode (frame : FrameLayout) (offset : Int) : AMode × List MInst :=
  let offset := offset + frame.outgoingArgsSize
  match Imm12.fromI32 offset with
  | some _ => (.spOffset offset, [])
  | none => (.regOffset spilltmpReg 0,
      [.loadImm spilltmpReg2 (BitVec.ofInt 64 offset), .aluRRR spilltmpReg stackReg spilltmpReg2])

def legalizeInst (frame : FrameLayout) : MInst → List MInst
  | .stackAddr rd (.slotOffset offset) =>
    let offset := offset + frame.outgoingArgsSize
    match Imm12.fromI32 offset with
    | some imm => [.aluRRImm12 rd stackReg imm]
    | none =>
      [.loadImm spilltmpReg2 (BitVec.ofInt 64 offset), .aluRRR rd stackReg spilltmpReg2]
  | .loadWord rd op (.slotOffset offset) =>
    let (addr, insts) := legalizeSlotAMode frame offset
    insts ++ [.loadWord rd op addr]
  | .storeWord rs op (.slotOffset offset) =>
    let (addr, insts) := legalizeSlotAMode frame offset
    insts ++ [.storeWord rs op addr]
  | inst => [inst]

inductive Allocation where
  | reg (preg : PReg)
  | stack (slot : Nat)
deriving DecidableEq, Repr

/-- `Edit::Move`; the virtual register it also names does not matter without vectors. -/
structure Edit where
  src : Allocation
  dst : Allocation
  cls : RegClass
deriving DecidableEq, Repr

/-- The type with which a value of the class is spilled. -/
def RegClass.spillType : RegClass → LoweredType
  | .float => .f32
  | .int => .i64

def Edit.insts (frame : FrameLayout) (edit : Edit) : Option (List MInst) :=
  match edit.src, edit.dst with
  | .reg src, .reg dst => some [genMove src dst]
  | .reg src, .stack slot => do
      some (genSpillStore src (← frame.spillSlotOffset slot) edit.cls.spillType)
  | .stack slot, .reg dst => do
      some (genSpillLoad (← frame.spillSlotOffset slot) dst edit.cls.spillType)
  | .stack srcSlot, .stack dstSlot => do
      let srcOffset ← frame.spillSlotOffset srcSlot
      let dstOffset ← frame.spillSlotOffset dstSlot
      some (genStackToStackMove srcOffset dstOffset)

/-- `InstOrEdit` -/
inductive Item where
  | inst (pseudo : MInst)
  | edit (moved : Edit)
deriving DecidableEq, Repr

def Item.expand (frame : FrameLayout) : Item → Option (List MInst)
  | .inst pseudo => some (legalizeInst frame pseudo)
  | .edit moved => (moved.insts frame).map fun insts => insts.flatMap (legalizeInst frame)

/-- The instructions of a block. -/
def finalizeForEmission (frame : FrameLayout) (items : List Item) : Option (List MInst) :=
  (items.mapM (Item.expand frame)).map List.flatten

/-! ## The machine -/

def StoreOP.size : StoreOP → Nat
  | .sw | .fsw => 4
  | .sd => 8

structure Machine where
  x : Fin 32 → BitVec 64
  f : Fin 32 → BitVec 32
  mem : Bytes

namespace Machine

variable (m : Machine)

def get : PReg → BitVec 64
  | ⟨n, .int⟩ => if n = 0 then 0 else m.x n
  | ⟨n, .float⟩ => (m.f n).setWidth 64

def set (rd : PReg) (value : BitVec 64) : Machine :=
  match rd with
  | ⟨n, .int⟩ => { m with x := Function.update m.x n value }
  | ⟨n, .float⟩ => { m with f := Function.update m.f n (value.setWidth 32) }

def sp : BitVec 64 := m.get stackReg

def write (address : BitVec 64) (op : StoreOP) (value : BitVec 64) : Machine :=
  { m with mem := m.mem.write address op.size (value.setWidth 128) }

end Machine

def LoadOP.eval (mem : Bytes) (address : BitVec 64) : LoadOP → BitVec 64
  | .lw => ((mem.read address 4).setWidth 32).signExtend 64
  | .ld => (mem.read address 8).setWidth 64
  | .flw => (mem.read address 4).setWidth 64

/-- The place an address stands for; an offset that is out of range has no encoding. -/
def AMode.address (m : Machine) : AMode → Option (BitVec 64)
  | .regOffset base offset =>
    if InRange12 offset then some (m.get base + BitVec.ofInt 64 offset) else none
  | .spOffset offset | .slotOffset offset | .outgoingArg offset =>
    if InRange12 offset then some (m.sp + BitVec.ofInt 64 offset) else none
  | .fpOffset offset | .incomingArg offset =>
    if InRange12 offset then some (m.get fpReg + BitVec.ofInt 64 offset) else none

def MInst.exec (m : Machine) : MInst → Option Machine
  | .aluRRR rd rs1 rs2 => some (m.set rd (m.get rs1 + m.get rs2))
  | .aluRRImm12 rd rs imm => some (m.set rd (m.get rs + BitVec.ofInt 64 imm.value))
  | .loadImm rd value => some (m.set rd value)
  | .loadWord rd op addr => (addr.address m).map fun a => m.set rd (op.eval m.mem a)
  | .storeWord rs op addr => (addr.address m).map fun a => m.write a op (m.get rs)
  | .stackAddr .. => none
  | .mov src dst => some (m.set dst (m.get src))

def execCode (m : Machine) (code : List MInst) : Option Machine := code.foldlM MInst.exec m

/-- What the assembler takes. -/
def MInst.Encodable : MInst → Prop
  | .loadWord _ _ addr | .storeWord _ _ addr =>
    match addr with
    | .slotOffset _ => False
    | .regOffset _ offset => InRange12 offset
    | .spOffset offset | .outgoingArg offset => InRange12 offset
    | .fpOffset offset | .incomingArg offset => InRange12 offset
  | .stackAddr .. => False
  | _ => True

end AnonCompiler.Riscv
