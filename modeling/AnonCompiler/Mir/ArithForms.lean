import AnonCompiler.Mir.VCode
import AnonCompiler.Mir.ConstantPlan

/-!
# Integer arithmetic forms

The forms of `anon_armv8/src/instructions.rs` that integer selection emits, beside those
with a constructor of their own: shifts by an immediate, shifted operands, division, the
long product, sign extension, moves and constants.  Each has its architectural meaning.
A straight-line piece of code runs from a register file to the next.
-/

set_option autoImplicit false

namespace AnonCompiler.Mir

open VCodeContainer (assign)

inductive ShiftOp where
  | lsl
  | lsr
  | asr
  | ror
deriving DecidableEq, Repr

def ShiftOp.eval {w : Nat} (op : ShiftOp) (x : BitVec w) (amount : Nat) : BitVec w :=
  match op with
  | .lsl => x <<< amount
  | .lsr => x >>> amount
  | .asr => x.sshiftRight amount
  | .ror => x.rotateRight amount

/-- The forms by their opcode; `fromZero` says that the left operand is the zero register. -/
inductive ArithOp where
  | immShift (op : AluOp) (size : OperandSize) (shift : Nat)
  | shifted (op : AluOp) (size : OperandSize) (fromZero : Bool) (shift : ShiftOp) (amount : Nat)
  | sDiv (size : OperandSize)
  | sMulL
  | sxtw
  | mov (size : OperandSize)
  | movFromZero (size : OperandSize)
  | loadImm (size : OperandSize) (value : BitVec 64)
  | loadAddr (label : Nat)
  | fMov
deriving DecidableEq, Repr

abbrev ArithInst := MInst ArithOp

namespace ArithInst

def aluRRImmShift (op : AluOp) (size : OperandSize) (dst src : Reg) (shift : Nat) : ArithInst :=
  .other (.immShift op size shift) [src] [dst]

def aluRRRShift (op : AluOp) (size : OperandSize) (dst : Reg) (lhs : RegOrZr) (rhs : Reg)
    (shift : ShiftOp) (amount : Nat) : ArithInst :=
  .other (.shifted op size (lhs = .zr) shift amount) (lhs.regs ++ [rhs]) [dst]

def sDiv (size : OperandSize) (dst lhs rhs : Reg) : ArithInst :=
    .other (.sDiv size) [lhs, rhs] [dst]

def sMulL (dst lhs rhs : Reg) : ArithInst := .other .sMulL [lhs, rhs] [dst]

def sxtw (dst src : Reg) : ArithInst := .other .sxtw [src] [dst]

def mov (size : OperandSize) (dst src : Reg) : ArithInst := .other (.mov size) [src] [dst]

def movFromZero (size : OperandSize) (dst : Reg) : ArithInst := .other (.movFromZero size) [] [dst]

def loadImm (size : OperandSize) (dst : Reg) (value : BitVec 64) : ArithInst :=
  .other (.loadImm size value) [] [dst]

def loadAddr (dst : Reg) (label : Nat) : ArithInst := .other (.loadAddr label) [] [dst]

def fMov (dst src : Reg) : ArithInst := .other .fMov [src] [dst]

end ArithInst

/-- What the forms leave in their destination.  A division by zero gives zero.  Addresses
and floating point are left open. -/
def ArithOp.result : ArithOp → List Value → Option Value
  | .immShift op size shift, [v] =>
    some (Value.written (op.eval (v.read size) (BitVec.ofNat size.bits shift)))
  | .shifted op size true shift amount, [r] =>
    some (Value.written (op.eval (0 : BitVec size.bits) (shift.eval (r.read size) amount)))
  | .shifted op size false shift amount, [l, r] =>
    some (Value.written (op.eval (l.read size) (shift.eval (r.read size) amount)))
  | .sDiv size, [l, r] => some (Value.written ((l.read size).sdiv (r.read size)))
  | .sMulL, [l, r] => some (@Value.written .size64
      ((l.read .size32).signExtend 64 * (r.read .size32).signExtend 64))
  | .sxtw, [v] => some (@Value.written .size64 ((v.read .size32).signExtend 64))
  | .mov size, [v] => some (Value.written (v.read size))
  | .movFromZero size, [] => some (Value.written (0 : BitVec size.bits))
  | .loadImm size value, [] => some (Value.written (value.setWidth size.bits))
  | _, _ => none

def arithTarget : Target ArithOp Unit where
  exec op values _ := (op.result values).map fun v => ([v], ())
  flags _ := none

/-- `MInst::verify`, with the bounds of the immediates and shift amounts. -/
def Encodable : ArithInst → Prop
  | .aluRRImm12 op _ _ _ _ => op = .add ∨ op = .sub
  | .aluRRImmLogic op size _ _ imm =>
    (op = .and ∨ op = .orr ∨ op = .eor) ∧ imm.size = size ∧ IsBitmask imm.value size
  | .other (.immShift op size shift) _ _ =>
    (op = .lsl ∨ op = .lsr ∨ op = .asr) ∧ shift < size.bits
  | .other (.shifted op size _ shift amount) _ _ =>
    ((op = .add ∨ op = .sub) ∧ shift ≠ .ror ∨ op = .and ∨ op = .orr ∨ op = .eor) ∧
      amount < size.bits
  | _ => True

/-! ## Running straight-line code -/

structure ArithState where
  regs : Reg → Value
  flags : Flags

def ArithInst.exec (inst : ArithInst) (s : ArithState) : Option ArithState :=
  (inst.results arithTarget s.regs s.flags ()).map fun (values, _) =>
    ⟨assign s.regs inst.defs values, inst.flagsAfter arithTarget s.regs s.flags ()⟩

def execCode (s : ArithState) (code : List ArithInst) : Option ArithState :=
  code.foldlM (fun s inst => ArithInst.exec inst s) s

@[simp] theorem execCode_nil (s : ArithState) : execCode s [] = some s := rfl

theorem execCode_cons (s : ArithState) (inst : ArithInst) (code : List ArithInst) :
    execCode s (inst :: code) = (ArithInst.exec inst s).bind fun t => execCode t code := rfl

theorem execCode_append {s t : ArithState} {code : List ArithInst} (more : List ArithInst)
    (run : execCode s code = some t) : execCode s (code ++ more) = execCode t more := by
  rw [execCode, List.foldlM_append, ← execCode, run]
  rfl

/-- A register file after one register has been written. -/
def ArithState.set (s : ArithState) (r : Reg) (v : Value) : ArithState :=
  { s with regs := Function.update s.regs r v }

@[simp] theorem ArithState.set_self (s : ArithState) (r : Reg) (v : Value) : (s.set r v).regs r =
  v :=
  Function.update_self ..

theorem ArithState.set_of_ne (s : ArithState) {r r' : Reg} (differ : r' ≠ r) (v : Value) :
    (s.set r v).regs r' = s.regs r' := Function.update_of_ne differ ..

theorem assign_single (ρ : Reg → Value) (dst : Reg) (v : Value) :
    assign ρ [dst] [v] = Function.update ρ dst v := by
  funext r
  by_cases same : dst = r
  · subst same
    simp [assign]
  · rw [Function.update_of_ne (Ne.symm same)]
    simp [assign, Ne.symm same]

/-- A form of its own opcode writes its result. -/
theorem exec_other {op : ArithOp} {uses : List Reg} {dst : Reg} {s : ArithState} {v : Value}
    (result : op.result (uses.map s.regs) = some v) :
    ArithInst.exec (.other op uses [dst]) s = some (s.set dst v) := by
  simp [ArithInst.exec, MInst.results, arithTarget, result, MInst.defs, MInst.flagsAfter,
    assign_single, ArithState.set]

section Forms

variable (s : ArithState) (size : OperandSize) (dst : Reg)

theorem exec_aluRRR (op : AluOp) (lhs rhs : RegOrZr) :
    ArithInst.exec (.aluRRR op size dst lhs rhs) s =
      some (s.set dst (Value.written (op.eval (lhs.read size s.regs) (rhs.read size s.regs)))) := by
  simp [ArithInst.exec, MInst.results, MInst.defs, MInst.flagsAfter, assign_single, ArithState.set]

theorem exec_aluRRImm12 (op : AluOp) (src : Reg) (imm : Imm12) :
    ArithInst.exec (.aluRRImm12 op size dst src imm) s =
      some (s.set dst (Value.written (op.eval ((s.regs src).read size) (imm.bits size)))) := by
  simp [ArithInst.exec, MInst.results, MInst.defs, MInst.flagsAfter, assign_single, ArithState.set]

theorem exec_aluRRImmLogic (op : AluOp) (src : RegOrZr) (imm : ImmLogic) :
    ArithInst.exec (.aluRRImmLogic op size dst src imm) s =
      some (s.set dst (Value.written (op.eval (src.read size s.regs) (imm.bits size)))) := by
  simp [ArithInst.exec, MInst.results, MInst.defs, MInst.flagsAfter, assign_single, ArithState.set]

theorem exec_mAdd (lhs rhs addend : Reg) : ArithInst.exec (.mAdd size dst lhs rhs addend) s =
    some (s.set dst (Value.written
      ((s.regs addend).read size + (s.regs lhs).read size * (s.regs rhs).read size))) := by
  simp [ArithInst.exec, MInst.results, MInst.defs, MInst.flagsAfter, assign_single, ArithState.set]

theorem exec_mSub (lhs rhs subtrahend : Reg) : ArithInst.exec (.mSub size dst lhs rhs subtrahend)
    s =
    some (s.set dst (Value.written
      ((s.regs subtrahend).read size - (s.regs lhs).read size * (s.regs rhs).read size))) := by
  simp [ArithInst.exec, MInst.results, MInst.defs, MInst.flagsAfter, assign_single, ArithState.set]

theorem exec_aluRRImmShift (op : AluOp) (src : Reg) (shift : Nat) :
    ArithInst.exec (.aluRRImmShift op size dst src shift) s =
      some (s.set dst (Value.written
        (op.eval ((s.regs src).read size) (BitVec.ofNat size.bits shift)))) :=
  exec_other rfl

theorem exec_aluRRRShift (op : AluOp) (lhs : RegOrZr) (rhs : Reg) (shift : ShiftOp) (amount : Nat) :
    ArithInst.exec (.aluRRRShift op size dst lhs rhs shift amount) s =
      some (s.set dst (Value.written
        (op.eval (lhs.read size s.regs) (shift.eval ((s.regs rhs).read size) amount)))) := by
  cases lhs <;> exact exec_other rfl

theorem exec_sDiv (lhs rhs : Reg) : ArithInst.exec (.sDiv size dst lhs rhs) s =
    some (s.set dst (Value.written (((s.regs lhs).read size).sdiv ((s.regs rhs).read size)))) :=
  exec_other rfl

theorem exec_sMulL (lhs rhs : Reg) : ArithInst.exec (.sMulL dst lhs rhs) s =
    some (s.set dst (@Value.written .size64 (((s.regs lhs).read .size32).signExtend 64 *
      ((s.regs rhs).read .size32).signExtend 64))) :=
  exec_other rfl

theorem exec_sxtw (src : Reg) : ArithInst.exec (.sxtw dst src) s =
    some (s.set dst (@Value.written .size64 (((s.regs src).read .size32).signExtend 64))) :=
  exec_other rfl

theorem exec_mov (src : Reg) : ArithInst.exec (.mov size dst src) s =
    some (s.set dst (Value.written ((s.regs src).read size))) :=
  exec_other rfl

theorem exec_movFromZero : ArithInst.exec (.movFromZero size dst) s =
    some (s.set dst (Value.written (0 : BitVec size.bits))) :=
  exec_other rfl

theorem exec_loadImm (value : BitVec 64) : ArithInst.exec (.loadImm size dst value) s =
    some (s.set dst (Value.written (value.setWidth size.bits))) :=
  exec_other rfl

/-- A comparison sets the flags, and the set that follows reads them. -/
theorem execCode_compare {inst : ArithInst} {a b : BitVec size.bits} {cond : Cond}
    (isCompare : ArithInst.exec inst s = some { s with flags := .ofSub a b }) :
    execCode s [inst, .cSet cond dst] =
      some ({ s with flags := .ofSub a b }.set dst (if cond.holds (.ofSub a b) then 1 else 0)) := by
  rw [execCode_cons, isCompare, Option.bind_some, execCode_cons]
  simp [ArithInst.exec, MInst.results, MInst.defs, MInst.flagsAfter, assign_single, ArithState.set]

theorem exec_cmpImm (lhs : Reg) (imm : Imm12) : ArithInst.exec (.cmpImm size lhs imm) s =
    some { s with flags := .ofSub ((s.regs lhs).read size) (imm.bits size) } := by
  simp [ArithInst.exec, MInst.results, MInst.defs, MInst.flagsAfter, assign]

theorem exec_cmpRR (lhs : Reg) (rhs : RegOrZr) : ArithInst.exec (.cmpRR size lhs rhs) s =
    some { s with flags := .ofSub ((s.regs lhs).read size) (rhs.read size s.regs) } := by
  simp [ArithInst.exec, MInst.results, MInst.defs, MInst.flagsAfter, assign]

end Forms

end AnonCompiler.Mir
