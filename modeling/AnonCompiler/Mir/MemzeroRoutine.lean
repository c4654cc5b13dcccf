import AnonCompiler.Lib.AssemblyText
import AnonCompiler.Lib.ByteRange
import AnonCompiler.Mir.Aarch64

/-!
# The zeroing routine

The routine `.Lsoyo_memzero` of `anon_armv8/src/runtime/memzero.S`, line by line.  The
address to clear comes in `x0` and the number of bytes in `x1`.  Every expansion of the
macro `ALIGN16_HEAD` has its own pair of the numeric labels 98 and 99, told apart by the
place it is expanded at.

Memory is byte addressed, addresses wrap around, and every store is recorded with its
address and size.  The system register `dczid_el0` says whether `dc zva` is prohibited
(bit 4) and how large its blocks are (the low four bits).
-/

set_option autoImplicit false

namespace AnonCompiler.Mir.Memzero

open Lib

/-! ## Instructions -/

/-- The general-purpose registers the routine uses. -/
inductive XReg where
  | x0
  | x1
  | x2
  | x3
  | x4
  | x5
deriving DecidableEq, Repr

inductive Operand where
  | imm (value : Nat)
  | reg (r : XReg)
deriving DecidableEq, Repr

/-- The places where `ALIGN16_HEAD` is expanded. -/
inductive HeadUse where
  | tier2
  | tier3
  | tier4
  | tier4Stp
  | tailQ
deriving DecidableEq, Repr

inductive Label where
  | head98 (use : HeadUse)
  | head99 (use : HeadUse)
  | memzero
  | t2Unroll
  | t2Sixteen
  | tier3
  | tier3Loop
  | tier4
  | tier4Blk
  | tier4Blk16
  | tier4Blks
  | tier4Zva
  | tier4Stp
  | tailQ
  | tailQLoop
  | tail16
  | tailScalar
  | tail4
  | tail2
  | tail1
  | done
deriving DecidableEq, Repr

/-- Stores advance their base by `post` bytes after the access. -/
inductive Instr where
  | mov (dst : XReg) (src : Operand)
  | moviV0
  | and (dst lhs : XReg) (rhs : Operand)
  | add (dst lhs rhs : XReg)
  | sub (dst lhs : XReg) (rhs : Operand)
  | subs (dst lhs : XReg) (rhs : Operand)
  | cmp (lhs : XReg) (rhs : Operand)
  | lsl (dst lhs rhs : XReg)
  | cbz (reg : XReg) (target : Label)
  | tbnz (reg : XReg) (bit : Nat) (target : Label)
  | bCond (cond : Cond) (target : Label)
  | b (target : Label)
  | strZr (size : Nat) (base : XReg) (post : Nat)
  | strQ0 (base : XReg) (post : Nat)
  | stpQ0 (base : XReg) (post : Nat)
  | mrsDczid (dst : XReg)
  | dcZva (base : XReg)
  | ret
deriving DecidableEq, Repr

/-! ## The machine -/

/-- The contents of `dczid_el0`; the architecture allows blocks of up to 2048 bytes. -/
structure Dczid where
  dzp : Bool
  bs : Nat
  permitted : bs ≤ 9
deriving DecidableEq, Repr

def Dczid.value (z : Dczid) : BitVec 64 := BitVec.ofNat 64 ((if z.dzp then 16 else 0) + z.bs)

/-- The size of a `dc zva` block in bytes. -/
def Dczid.block (z : Dczid) : Nat := 4 * 2 ^ z.bs

abbrev Memory := BitVec 64 → BitVec 8

structure State where
  x0 : BitVec 64
  x1 : BitVec 64
  x2 : BitVec 64
  x3 : BitVec 64
  x4 : BitVec 64
  x5 : BitVec 64
  v0 : BitVec 128
  flags : Flags
  memory : Memory
  /-- Address and size of every store so far. -/
  stores : List (BitVec 64 × Nat)

namespace State

def get (s : State) : XReg → BitVec 64
  | .x0 => s.x0
  | .x1 => s.x1
  | .x2 => s.x2
  | .x3 => s.x3
  | .x4 => s.x4
  | .x5 => s.x5

def set (s : State) (r : XReg) (v : BitVec 64) : State :=
  match r with
  | .x0 => { s with x0 := v }
  | .x1 => { s with x1 := v }
  | .x2 => { s with x2 := v }
  | .x3 => { s with x3 := v }
  | .x4 => { s with x4 := v }
  | .x5 => { s with x5 := v }

def operand (s : State) : Operand → BitVec 64
  | .imm value => BitVec.ofNat 64 value
  | .reg r => s.get r

/-- Store a number of bytes, given by their position. -/
def store (s : State) (addr : BitVec 64) (size : Nat) (bytes : Nat → BitVec 8) : State :=
  { s with
    memory := fun a =>
      if (a - addr).toNat < size then bytes (a - addr).toNat else s.memory a
    stores := s.stores ++ [(addr, size)] }

/-- The byte at a position of `q0`. -/
def q0Byte (s : State) (k : Nat) : BitVec 8 := (s.v0 >>> (8 * k)).setWidth 8

/-- Some store has written the byte. -/
def Touched (s : State) (a : BitVec 64) : Prop := ∃ access ∈ s.stores,
    a ∈ byteRange access.1 access.2

end State

def exec (z : Dczid) (i : Instr) (s : State) : Option (Goes Label State) :=
  let branch (taken : Bool) (target : Label) : Goes Label State :=
    if taken then .goto target s else .next s
  match i with
  | .mov dst src => some (.next (s.set dst (s.operand src)))
  | .moviV0 => some (.next { s with v0 := 0 })
  | .and dst lhs rhs => some (.next (s.set dst (s.get lhs &&& s.operand rhs)))
  | .add dst lhs rhs => some (.next (s.set dst (s.get lhs + s.get rhs)))
  | .sub dst lhs rhs => some (.next (s.set dst (s.get lhs - s.operand rhs)))
  | .subs dst lhs rhs =>
    some (.next ({ s with flags := .ofSub (s.get lhs) (s.operand rhs) }.set dst
      (s.get lhs - s.operand rhs)))
  | .cmp lhs rhs => some (.next { s with flags := .ofSub (s.get lhs) (s.operand rhs) })
  | .lsl dst lhs rhs => some (.next (s.set dst (s.get lhs <<< ((s.get rhs).toNat % 64))))
  | .cbz reg target => some (branch (s.get reg == 0) target)
  | .tbnz reg bit target => some (branch ((s.get reg).getLsbD bit) target)
  | .bCond cond target => some (branch (cond.holds s.flags) target)
  | .b target => some (branch true target)
  | .strZr size base post =>
    some (.next ((s.store (s.get base) size fun _ => 0).set base
      (s.get base + BitVec.ofNat 64 post)))
  | .strQ0 base post =>
    some (.next ((s.store (s.get base) 16 s.q0Byte).set base (s.get base + BitVec.ofNat 64 post)))
  | .stpQ0 base post =>
    some (.next ((s.store (s.get base) 32 fun k => s.q0Byte (k % 16)).set base
      (s.get base + BitVec.ofNat 64 post)))
  | .mrsDczid dst => some (.next (s.set dst z.value))
  | .dcZva base =>
    -- prohibited, or all bytes of the block that contains the address
    if z.dzp then none
    else some (.next (s.store
      (BitVec.ofNat 64 ((s.get base).toNat - (s.get base).toNat % z.block)) z.block fun _ => 0))
  | .ret => none

/-! ## The text -/

/-- `ALIGN16_HEAD` -/
def align16Head (use : HeadUse) : List (Line Label Instr) :=
  [.instr (.and .x4 .x0 (.imm 15)), .instr (.cbz .x4 (.head99 use)), .instr (.mov .x5 (.imm 16)),
   .instr (.sub .x4 .x5 (.reg .x4)),
   .label (.head98 use),
   .instr (.strZr 1 .x0 1),
   .instr (.sub .x1 .x1 (.imm 1)),
   .instr (.subs .x4 .x4 (.imm 1)),
   .instr (.bCond .ne (.head98 use)),
   .label (.head99 use)]

def text : List (Line Label Instr) :=
  ([.label .memzero, .instr (.mov .x2 (.reg .x0)), .instr (.cbz .x1 .done),
    .instr (.cmp .x1 (.imm 16)),
    .instr (.bCond .lo .tailScalar),
    .instr .moviV0,
    .instr (.cmp .x1 (.imm 64)),
    .instr (.bCond .hi .tier3)] : List (Line Label Instr)) ++
  align16Head .tier2 ++
  ([.label .t2Unroll, .instr (.cmp .x1 (.imm 32)), .instr (.bCond .lo .t2Sixteen),
    .instr (.stpQ0 .x0 32),
    .instr (.sub .x1 .x1 (.imm 32)),
    .instr (.cmp .x1 (.imm 32)),
    .instr (.bCond .lo .t2Sixteen),
    .instr (.stpQ0 .x0 32),
    .instr (.sub .x1 .x1 (.imm 32)),
    .label .t2Sixteen,
    .instr (.cmp .x1 (.imm 16)),
    .instr (.bCond .lo .tailScalar),
    .instr (.strQ0 .x0 16),
    .instr (.sub .x1 .x1 (.imm 16)),
    .instr (.b .tailScalar),
    .label .tier3,
    .instr (.cmp .x1 (.imm 256)),
    .instr (.bCond .hi .tier4)] : List (Line Label Instr)) ++
  align16Head .tier3 ++
  ([.label .tier3Loop, .instr (.cmp .x1 (.imm 32)), .instr (.bCond .lo .tailQ),
    .instr (.stpQ0 .x0 32),
    .instr (.sub .x1 .x1 (.imm 32)),
    .instr (.b .tier3Loop),
    .label .tier4,
    .instr (.mrsDczid .x3),
    .instr (.tbnz .x3 4 .tier4Stp),
    .instr (.and .x3 .x3 (.imm 0xf)),
    .instr (.mov .x4 (.imm 4)),
    .instr (.lsl .x3 .x4 .x3)] : List (Line Label Instr)) ++
  align16Head .tier4 ++
  ([.instr (.sub .x4 .x3 (.imm 1)), .instr (.and .x5 .x0 (.reg .x4)), .instr (.cbz .x5 .tier4Zva),
    .instr (.sub .x4 .x3 (.reg .x5)),
    .label .tier4Blk,
    .instr (.cbz .x4 .tier4Zva),
    .instr (.cmp .x4 (.imm 32)),
    .instr (.bCond .lo .tier4Blk16),
    .instr (.stpQ0 .x0 32),
    .instr (.sub .x4 .x4 (.imm 32)),
    .instr (.sub .x1 .x1 (.imm 32)),
    .instr (.b .tier4Blk),
    .label .tier4Blk16,
    .instr (.cmp .x4 (.imm 16)),
    .instr (.bCond .lo .tier4Blks),
    .instr (.strQ0 .x0 16),
    .instr (.sub .x4 .x4 (.imm 16)),
    .instr (.sub .x1 .x1 (.imm 16)),
    .instr (.b .tier4Blk),
    .label .tier4Blks,
    .instr (.strZr 1 .x0 1),
    .instr (.sub .x4 .x4 (.imm 1)),
    .instr (.sub .x1 .x1 (.imm 1)),
    .instr (.b .tier4Blk),
    .label .tier4Zva,
    .instr (.cmp .x1 (.reg .x3)),
    .instr (.bCond .lo .tailQ),
    .instr (.dcZva .x0),
    .instr (.add .x0 .x0 .x3),
    .instr (.sub .x1 .x1 (.reg .x3)),
    .instr (.b .tier4Zva),
    .label .tier4Stp] : List (Line Label Instr)) ++
  align16Head .tier4Stp ++
  ([.instr (.b .tier3Loop), .label .tailQ, .instr (.cmp .x1 (.imm 16)),
    .instr (.bCond .lo .tailScalar)] : List (Line Label Instr)) ++
  align16Head .tailQ ++
  ([.label .tailQLoop, .instr (.cmp .x1 (.imm 32)), .instr (.bCond .lo .tail16),
    .instr (.stpQ0 .x0 32),
    .instr (.sub .x1 .x1 (.imm 32)),
    .instr (.b .tailQLoop),
    .label .tail16,
    .instr (.cmp .x1 (.imm 16)),
    .instr (.bCond .lo .tailScalar),
    .instr (.strQ0 .x0 16),
    .instr (.sub .x1 .x1 (.imm 16)),
    .instr (.b .tailQLoop),
    .label .tailScalar,
    .instr (.cbz .x1 .done),
    .instr (.cmp .x1 (.imm 8)),
    .instr (.bCond .lo .tail4),
    .instr (.strZr 8 .x0 8),
    .instr (.sub .x1 .x1 (.imm 8)),
    .instr (.cbz .x1 .done),
    .label .tail4,
    .instr (.cmp .x1 (.imm 4)),
    .instr (.bCond .lo .tail2),
    .instr (.strZr 4 .x0 4),
    .instr (.sub .x1 .x1 (.imm 4)),
    .instr (.cbz .x1 .done),
    .label .tail2,
    .instr (.cmp .x1 (.imm 2)),
    .instr (.bCond .lo .tail1),
    .instr (.strZr 2 .x0 2),
    .instr (.sub .x1 .x1 (.imm 2)),
    .instr (.cbz .x1 .done),
    .label .tail1,
    .instr (.strZr 1 .x0 0),
    .instr (.b .done),
    .label .done,
    .instr (.mov .x0 (.reg .x2)),
    .instr .ret] : List (Line Label Instr))

def routine (z : Dczid) : Assembly Label Instr State := ⟨text, exec z⟩

/-- The lines from a label on. -/
def codeAt (l : Label) : List (Line Label Instr) := (behind l text).getD []

/-- The run returns from the call, in the given state. -/
def Returns (z : Dczid) (s t : State) : Prop :=
  ∃ rest, (routine z).Reaches (codeAt .memzero, s) (.instr .ret :: rest, t)

end AnonCompiler.Mir.Memzero
