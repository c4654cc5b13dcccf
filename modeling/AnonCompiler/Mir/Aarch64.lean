import Mathlib.Data.List.Basic
import Mathlib.Tactic

/-!
# AArch64 machine instructions before register allocation

The typed instruction forms of `anon_armv8/src/instructions.rs` and the registers
of `taki_mir/src/register.rs`, as far as integer arithmetic, the condition flags
and control flow go.  These forms have their architectural meaning here: a 32-bit
form reads the low halves of its operands and clears the high half of its result,
a subtraction sets all four flags, a logical operation clears carry and overflow.

The other forms (moves, loads and stores, floating point, vectors, selects and
calls) read and write the registers they list and the world behind them, in a way
that is a parameter (`Target`).  None of them reads the flags, since a select
makes its own comparison, and some of them overwrite the flags.
-/

set_option autoImplicit false

namespace AnonCompiler.Mir

/-! ## Registers -/

inductive RegClass where
  | int
  | float
  | vector
deriving DecidableEq, Repr

/-- A register named in an instruction.  The first registers are pinned to
physical ones. -/
structure Reg where
  vreg : Nat
  regClass : RegClass
deriving DecidableEq, Repr

/-- How many of the registers are pinned. -/
def pinnedPreg : Nat := 192

def Reg.isVirtual (r : Reg) : Bool := pinnedPreg ≤ r.vreg

/-- A general-purpose data operand; register 31 is the zero register there. -/
inductive RegOrZr where
  | reg (r : Reg)
  | zr
deriving DecidableEq, Repr

inductive OperandSize where
  | size32
  | size64
deriving DecidableEq, Repr

@[reducible] def OperandSize.bits : OperandSize → Nat
  | .size32 => 32
  | .size64 => 64

/-- The contents of a register, wide enough for the vector registers. -/
abbrev Value := BitVec 128

/-- What an instruction of the given width reads of a register. -/
def Value.read (size : OperandSize) (v : Value) : BitVec size.bits := v.setWidth size.bits

/-- What an instruction of the given width leaves in its destination. -/
def Value.written {size : OperandSize} (v : BitVec size.bits) : Value := v.setWidth 128

@[simp] theorem Value.read_written {size : OperandSize} (v : BitVec size.bits) :
    Value.read size (Value.written v) = v := by
  have fits : size.bits ≤ 128 := by cases size <;> decide
  rw [Value.read, Value.written, BitVec.setWidth_setWidth_of_le v fits, BitVec.setWidth_eq]

/-! ## Immediates -/

/-- A 12-bit immediate, optionally shifted left by twelve. -/
structure Imm12 where
  value : Nat
  shift12 : Bool
  valid : value ≤ 0xfff
deriving DecidableEq, Repr

def Imm12.bits (imm : Imm12) (size : OperandSize) : BitVec size.bits :=
  BitVec.ofNat size.bits (if imm.shift12 then imm.value * 4096 else imm.value)

structure ImmLogic where
  value : BitVec 64
  size : OperandSize
deriving DecidableEq, Repr

def ImmLogic.bits (imm : ImmLogic) (size : OperandSize) : BitVec size.bits :=
  imm.value.setWidth size.bits

/-! ## Flags and conditions -/

structure Flags where
  n : Bool
  z : Bool
  c : Bool
  v : Bool
deriving DecidableEq, Repr

/-- The flags a subtraction sets: carry means no borrow. -/
def Flags.ofSub {w : Nat} (a b : BitVec w) : Flags where
  n := (a - b).msb
  z := a - b == 0
  c := !a.ult b
  v := a.msb != b.msb && (a - b).msb != a.msb

/-- The flags a logical operation with the given result sets. -/
def Flags.ofLogic {w : Nat} (r : BitVec w) : Flags where
  n := r.msb
  z := r == 0
  c := false
  v := false

inductive Cond where
  | eq
  | ne
  | hs
  | lo
  | mi
  | pl
  | vs
  | vc
  | hi
  | ls
  | ge
  | lt
  | gt
  | le
deriving DecidableEq, Repr

def Cond.holds : Cond → Flags → Bool
  | .eq, f => f.z
  | .ne, f => !f.z
  | .hs, f => f.c
  | .lo, f => !f.c
  | .mi, f => f.n
  | .pl, f => !f.n
  | .vs, f => f.v
  | .vc, f => !f.v
  | .hi, f => f.c && !f.z
  | .ls, f => !(f.c && !f.z)
  | .ge, f => f.n == f.v
  | .lt, f => f.n != f.v
  | .gt, f => !f.z && f.n == f.v
  | .le, f => f.z || f.n != f.v

/-- The flags written by a conditional compare whose condition fails. -/
def Flags.ofNzcv (nzcv : BitVec 4) : Flags where
  n := nzcv.getLsbD 3
  z := nzcv.getLsbD 2
  c := nzcv.getLsbD 1
  v := nzcv.getLsbD 0

/-! ## Instructions -/

inductive AluOp where
  | add
  | sub
  | mul
  | and
  | orr
  | orn
  | eor
  | lsl
  | lsr
  | asr
deriving DecidableEq, Repr

/-- Register shifts take their amount modulo the width. -/
def AluOp.eval {w : Nat} (op : AluOp) (a b : BitVec w) : BitVec w :=
  match op with
  | .add => a + b
  | .sub => a - b
  | .mul => a * b
  | .and => a &&& b
  | .orr => a ||| b
  | .orn => a ||| ~~~b
  | .eor => a ^^^ b
  | .lsl => a <<< (b.toNat % w)
  | .lsr => a >>> (b.toNat % w)
  | .asr => a.sshiftRight (b.toNat % w)

/-- Index of a block in lowered order. -/
abbrev MirBlock := Nat

inductive Label where
  | block (b : MirBlock)
  | external (symbol : Nat)
deriving DecidableEq, Repr

def Label.block? : Label → Option MirBlock
  | .block b => some b
  | .external _ => none

/-- The instruction forms.  `other` stands for the forms without a constructor of
their own, with the registers they use and define, and `tailCall` leaves the
function with the given argument registers. -/
inductive MInst (Op : Type) where
  | nop
  | removed
  | aluRRR (op : AluOp) (size : OperandSize) (dst : Reg) (lhs rhs : RegOrZr)
  | aluRRImm12 (op : AluOp) (size : OperandSize) (dst src : Reg) (imm : Imm12)
  | aluRRImmLogic (op : AluOp) (size : OperandSize) (dst : Reg) (src : RegOrZr) (imm : ImmLogic)
  | mAdd (size : OperandSize) (dst lhs rhs addend : Reg)
  | mSub (size : OperandSize) (dst lhs rhs subtrahend : Reg)
  | cmpRR (size : OperandSize) (lhs : Reg) (rhs : RegOrZr)
  | cmpImm (size : OperandSize) (lhs : Reg) (imm : Imm12)
  | subsRRImm12 (size : OperandSize) (dst src : Reg) (imm : Imm12)
  | andsRRImmLogic (size : OperandSize) (dst : Reg) (src : RegOrZr) (imm : ImmLogic)
  | tstRRImmLogic (size : OperandSize) (src : RegOrZr) (imm : ImmLogic)
  | cCmp (size : OperandSize) (lhs : Reg) (rhs : RegOrZr) (imm : Option Imm12) (nzcv : BitVec 4)
      (cond : Cond)
  | cSet (cond : Cond) (dst : Reg)
  | cbz (size : OperandSize) (reg : Reg) (trueLabel falseLabel : Label)
  | cbnz (size : OperandSize) (reg : Reg) (trueLabel falseLabel : Label)
  | tbz (size : OperandSize) (reg : Reg) (bit : Nat) (trueLabel falseLabel : Label)
  | tbnz (size : OperandSize) (reg : Reg) (bit : Nat) (trueLabel falseLabel : Label)
  | condBr (cond : Cond) (trueLabel falseLabel : Label)
  | jump (label : Label)
  | tailCall (args : List Reg) (label : Label)
  | ret
  | other (op : Op) (uses defs : List Reg)
deriving DecidableEq, Repr

/-- What the other forms do: the values they define and the next world, from the
values they use; and the flags of those that set them. -/
structure Target (Op World : Type) where
  exec : Op → List Value → World → Option (List Value × World)
  flags : Op → Option (List Value → World → Flags)

namespace RegOrZr

def regs : RegOrZr → List Reg
  | .reg r => [r]
  | .zr => []

def read (size : OperandSize) (ρ : Reg → Value) : RegOrZr → BitVec size.bits
  | .reg r => (ρ r).read size
  | .zr => 0

theorem read_congr {size : OperandSize} {ρ ρ' : Reg → Value} {x : RegOrZr}
    (same : ∀ r ∈ x.regs, ρ r = ρ' r) : x.read size ρ = x.read size ρ' := by
  cases x with
  | zr => rfl
  | reg r => simp only [RegOrZr.read, same r (by simp [RegOrZr.regs])]

end RegOrZr

namespace MInst

variable {Op World : Type}

/-- The registers an instruction reads, once for each operand (`get_operands`). -/
def uses : MInst Op → List Reg
  | .nop | .removed | .condBr _ _ _ | .jump _ | .ret => []
  | .aluRRR _ _ _ lhs rhs => lhs.regs ++ rhs.regs
  | .aluRRImm12 _ _ _ src _ => [src]
  | .aluRRImmLogic _ _ _ src _ => src.regs
  | .mAdd _ _ lhs rhs addend => [lhs, rhs, addend]
  | .mSub _ _ lhs rhs subtrahend => [lhs, rhs, subtrahend]
  | .cmpRR _ lhs rhs => lhs :: rhs.regs
  | .cmpImm _ lhs _ => [lhs]
  | .subsRRImm12 _ _ src _ => [src]
  | .andsRRImmLogic _ _ src _ => src.regs
  | .tstRRImmLogic _ src _ => src.regs
  | .cCmp _ lhs rhs _ _ _ => lhs :: rhs.regs
  | .cSet _ _ => []
  | .cbz _ reg _ _ | .cbnz _ reg _ _ | .tbz _ reg _ _ _ | .tbnz _ reg _ _ _ => [reg]
  | .tailCall args _ => args
  | .other _ used _ => used

/-- The registers an instruction writes. -/
def defs : MInst Op → List Reg
  | .aluRRR _ _ dst _ _ => [dst]
  | .aluRRImm12 _ _ dst _ _ => [dst]
  | .aluRRImmLogic _ _ dst _ _ => [dst]
  | .mAdd _ dst _ _ _ => [dst]
  | .mSub _ dst _ _ _ => [dst]
  | .subsRRImm12 _ dst _ _ => [dst]
  | .andsRRImmLogic _ dst _ _ => [dst]
  | .cSet _ dst => [dst]
  | .other _ _ defined => defined
  | _ => []

/-- The targets of a branch, in the order of the block's successors. -/
def targets : MInst Op → List Label
  | .cbz _ _ t f | .cbnz _ _ t f | .tbz _ _ _ t f | .tbnz _ _ _ t f | .condBr _ t f => [t, f]
  | .jump label => [label]
  | _ => []

def isTerm : MInst Op → Bool
  | .cbz _ _ _ _ | .cbnz _ _ _ _ | .tbz _ _ _ _ _ | .tbnz _ _ _ _ _
  | .condBr _ _ _ | .jump _ | .tailCall _ _ | .ret => true
  | _ => false

def readsFlags : MInst Op → Bool
  | .cCmp _ _ _ _ _ _ | .cSet _ _ | .condBr _ _ _ => true
  | _ => false

def setsFlags (M : Target Op World) : MInst Op → Bool
  | .cmpRR _ _ _ | .cmpImm _ _ _ | .subsRRImm12 _ _ _ _ | .andsRRImmLogic _ _ _ _
  | .tstRRImmLogic _ _ _ | .cCmp _ _ _ _ _ _ => true
  | .other op _ _ => (M.flags op).isSome
  | _ => false

/-- The values an instruction leaves in the registers it writes, and the world it
leaves behind. -/
def results (M : Target Op World) (inst : MInst Op) (ρ : Reg → Value) (f : Flags) (w : World) :
    Option (List Value × World) :=
  match inst with
  | .aluRRR op size _ lhs rhs =>
    some ([Value.written (op.eval (lhs.read size ρ) (rhs.read size ρ))], w)
  | .aluRRImm12 op size _ src imm =>
    some ([Value.written (op.eval ((ρ src).read size) (imm.bits size))], w)
  | .aluRRImmLogic op size _ src imm =>
    some ([Value.written (op.eval (src.read size ρ) (imm.bits size))], w)
  | .mAdd size _ lhs rhs addend =>
    some ([Value.written ((ρ addend).read size + (ρ lhs).read size * (ρ rhs).read size)], w)
  | .mSub size _ lhs rhs subtrahend =>
    some ([Value.written ((ρ subtrahend).read size - (ρ lhs).read size * (ρ rhs).read size)], w)
  | .subsRRImm12 size _ src imm =>
    some ([Value.written ((ρ src).read size - imm.bits size)], w)
  | .andsRRImmLogic size _ src imm =>
    some ([Value.written (src.read size ρ &&& imm.bits size)], w)
  | .cSet cond _ => some ([if cond.holds f then 1 else 0], w)
  | .other op used _ => M.exec op (used.map ρ) w
  | _ => some ([], w)

/-- The flags after an instruction. -/
def flagsAfter (M : Target Op World) (inst : MInst Op) (ρ : Reg → Value) (f : Flags) (w : World) :
    Flags :=
  match inst with
  | .cmpRR size lhs rhs => .ofSub ((ρ lhs).read size) (rhs.read size ρ)
  | .cmpImm size lhs imm => .ofSub ((ρ lhs).read size) (imm.bits size)
  | .subsRRImm12 size _ src imm => .ofSub ((ρ src).read size) (imm.bits size)
  | .andsRRImmLogic size _ src imm => .ofLogic (src.read size ρ &&& imm.bits size)
  | .tstRRImmLogic size src imm => .ofLogic (src.read size ρ &&& imm.bits size)
  | .cCmp size lhs rhs imm nzcv cond =>
    if cond.holds f then
      .ofSub ((ρ lhs).read size) (imm.elim (rhs.read size ρ) (fun imm => imm.bits size))
    else .ofNzcv nzcv
  | .other op used _ =>
    match M.flags op with
    | some g => g (used.map ρ) w
    | none => f
  | _ => f

/-- The label a branch goes to, with its position among the block's successors. -/
def branch (inst : MInst Op) (ρ : Reg → Value) (f : Flags) : Option (Label × Nat) :=
  let choose (taken : Bool) (t e : Label) := if taken then (t, 0) else (e, 1)
  match inst with
  | .cbz size reg t e => some (choose ((ρ reg).read size == 0) t e)
  | .cbnz size reg t e => some (choose ((ρ reg).read size != 0) t e)
  | .tbz size reg bit t e => some (choose (!((ρ reg).read size).getLsbD bit) t e)
  | .tbnz size reg bit t e => some (choose (((ρ reg).read size).getLsbD bit) t e)
  | .condBr cond t e => some (choose (cond.holds f) t e)
  | .jump label => some (label, 0)
  | _ => none

theorem targets_of_branch {inst : MInst Op} {ρ : Reg → Value} {f : Flags} {label : Label} {k : Nat}
    (taken : inst.branch ρ f = some (label, k)) : inst.targets[k]? = some label := by
  have choose : ∀ (b : Bool) (t e : Label), (if b = true then (t, 0) else (e, 1)) = (label, k) →
      [t, e][k]? = some label := by
    intro b t e same
    cases b <;> cases same <;> rfl
  cases inst with
  | cbz | cbnz | tbz | tbnz | condBr => exact choose _ _ _ (Option.some.inj taken)
  | jump => cases taken; rfl
  | _ => cases taken

section Congr

variable {M : Target Op World} {inst : MInst Op} {ρ ρ' : Reg → Value} {f f' : Flags} {w : World}

/-- An instruction computes from the registers it reads, and from the flags only
when it reads them. -/
theorem results_congr (same : ∀ r ∈ inst.uses, ρ r = ρ' r)
    (flags : inst.readsFlags = true → f = f') : inst.results M ρ f w = inst.results M ρ' f' w := by
  cases inst with
  | aluRRR op size dst lhs rhs =>
    have left : lhs.read size ρ = lhs.read size ρ' :=
      RegOrZr.read_congr (fun r h => same r (by simp [uses, h]))
    have right : rhs.read size ρ = rhs.read size ρ' :=
      RegOrZr.read_congr (fun r h => same r (by simp [uses, h]))
    simp only [results, left, right]
  | aluRRImmLogic op size dst src imm | andsRRImmLogic size dst src imm =>
    simp only [results, RegOrZr.read_congr same]
  | other op used defined =>
    have args : used.map ρ = used.map ρ' := List.map_congr_left same
    simp only [results, args]
  | cSet cond dst => simp only [results, flags rfl]
  | _ => simp_all [uses, results]

theorem flagsAfter_congr (same : ∀ r ∈ inst.uses, ρ r = ρ' r)
    (flags : inst.readsFlags = true → f = f') (sets : inst.setsFlags M = true) :
    inst.flagsAfter M ρ f w = inst.flagsAfter M ρ' f' w := by
  cases inst with
  | cmpRR size lhs rhs =>
    have right : rhs.read size ρ = rhs.read size ρ' :=
      RegOrZr.read_congr (fun r h => same r (by simp [uses, h]))
    simp only [flagsAfter, right, same lhs (by simp [uses])]
  | cCmp size lhs rhs imm nzcv cond =>
    have right : rhs.read size ρ = rhs.read size ρ' :=
      RegOrZr.read_congr (fun r h => same r (by simp [uses, h]))
    simp only [flagsAfter, right, same lhs (by simp [uses]), flags rfl]
  | andsRRImmLogic size dst src imm | tstRRImmLogic size src imm =>
    simp only [flagsAfter, RegOrZr.read_congr same]
  | other op used defined =>
    have args : used.map ρ = used.map ρ' := List.map_congr_left same
    cases h : M.flags op with
    | none => simp [setsFlags, h] at sets
    | some g => simp only [flagsAfter, h, args]
  | _ => simp_all [uses, flagsAfter, setsFlags]

theorem flagsAfter_of_not_sets (keeps : inst.setsFlags M = false) :
    inst.flagsAfter M ρ f w = f := by
  cases inst with
  | other op used defined =>
    simp only [setsFlags, Option.isSome_eq_false_iff, Option.isNone_iff_eq_none] at keeps
    simp [flagsAfter, keeps]
  | _ => simp_all [flagsAfter, setsFlags]

theorem branch_congr (same : ∀ r ∈ inst.uses, ρ r = ρ' r)
    (flags : inst.readsFlags = true → f = f') : inst.branch ρ f = inst.branch ρ' f' := by
  cases inst with
  | condBr cond t e => simp only [branch, flags rfl]
  | _ => simp_all [uses, branch]

end Congr

end MInst

end AnonCompiler.Mir
