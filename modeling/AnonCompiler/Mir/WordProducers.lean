import AnonCompiler.Mir.ImmediateForms
import AnonCompiler.Mir.WordResults

/-!
# Where the upper half of a word comes from

The instructions that produce an `i32`, with the contents of the 64-bit register that holds
it.  All but three kinds end with a 32-bit form.  The modular product is left by a 64-bit
subtraction, a call or a parameter leaves what the other function has left, and a product or
quotient by one is the register of its operand.  `Producer.register_eq_iff` says when the
register is the word itself, with zeros above it.
-/

set_option autoImplicit false

namespace AnonCompiler.Mir

open Ir LowerContext Lib

/-! ## The modular product -/

section Mulmod

variable (P : Program) (F : FunctionData)

/-- `lower_mulmod_builtin`, from where the operands are in registers. -/
def expandMulmod (inst : Inst) (a b p : Reg) : LowerM Reg := do
  let product ← allocTmp (.pointer .int32)
  emit (.sMulL product a b)
  let p64 ← allocTmp (.pointer .int32)
  emit (.sxtw p64 p)
  let quotient ← allocTmp (.pointer .int32)
  emit (.sDiv .size64 quotient product p64)
  let result ← resultReg P F inst
  emit (.mSub .size64 result quotient p64 product)
  pure result

def lowerMulmodBuiltin (inst a b p : Inst) : LowerM Reg := do
  let a ← putValueInReg P F a
  let b ← putValueInReg P F b
  let p ← putValueInReg P F p
  expandMulmod P F inst a b p

end Mulmod

/-- The remainder of the product, as the builtin computes it. -/
def mulmod (a b p : BitVec 32) : Int := (a.toInt * b.toInt).tmod p.toInt

def mulmodCode (next : Nat) (result a b p : Reg) : List ArithInst :=
  [.sMulL ⟨next, .int⟩ a b, .sxtw ⟨next + 1, .int⟩ p,
    .sDiv .size64 ⟨next + 2, .int⟩ ⟨next, .int⟩ ⟨next + 1, .int⟩,
    .mSub .size64 result ⟨next + 2, .int⟩ ⟨next + 1, .int⟩ ⟨next, .int⟩]

variable {P : Program} {F : FunctionData}

variable {inst : Inst} {r a b p : Reg} {c c' : LowerContext}

theorem resultReg_same (found : resultReg P F inst c = some (r, c')) : c' = c := by
  unfold resultReg at found
  obtain ⟨data, -, found⟩ := Option.bind_eq_some_iff.mp found
  split at found
  · cases found
  · obtain ⟨reg, -, found⟩ := Option.bind_eq_some_iff.mp found
    split at found
    · cases found
      rfl
    · cases found

theorem expandMulmod_emits (run : expandMulmod P F inst a b p c = some (r, c')) :
    c'.irInst = c.irInst ++ mulmodCode c.nextVreg r a b p := by
  let c₁ : LowerContext := { c with
    nextVreg := c.nextVreg + 1 + 1 + 1
    irInst := c.irInst ++ [.sMulL ⟨c.nextVreg, .int⟩ a b] ++
      [.sxtw ⟨c.nextVreg + 1, .int⟩ p] ++
      [.sDiv .size64 ⟨c.nextVreg + 2, .int⟩ ⟨c.nextVreg, .int⟩ ⟨c.nextVreg + 1, .int⟩] }
  have last : ((resultReg P F inst c₁).bind fun x => some (x.1, { x.2 with
      irInst := x.2.irInst ++ [.mSub .size64 x.1 ⟨c.nextVreg + 2, .int⟩ ⟨c.nextVreg + 1, .int⟩
        ⟨c.nextVreg, .int⟩] })) = some (r, c') := run
  obtain ⟨⟨result, c₂⟩, found, emitted⟩ := Option.bind_eq_some_iff.mp last
  cases emitted
  rw [resultReg_same found]
  simp [mulmodCode, c₁]

/-- The remainder of the product is left by a 64-bit subtraction. -/
theorem execCode_mulmod (s : ArithState) {next : Nat} {result : Reg} (apart : p.vreg < next) :
    ∃ s', execCode s (mulmodCode next result a b p) = some s' ∧
      (s'.regs result).read .size64 = BitVec.ofInt 64
        (mulmod ((s.regs a).read .size32) ((s.regs b).read .size32) ((s.regs p).read .size32)) := by
  have isOld : p ≠ ⟨next, .int⟩ := by
    rintro rfl
    exact Nat.lt_irrefl _ apart
  let x := (s.regs a).read .size32
  let y := (s.regs b).read .size32
  let z := (s.regs p).read .size32
  have code : execCode s (mulmodCode next result a b p) = some
      ((((s.set ⟨next, .int⟩ (@Value.written .size64 (x.signExtend 64 * y.signExtend 64))).set
        ⟨next + 1, .int⟩ (@Value.written .size64 (z.signExtend 64))).set
        ⟨next + 2, .int⟩ (@Value.written .size64
          ((x.signExtend 64 * y.signExtend 64).sdiv (z.signExtend 64)))).set
        result (@Value.written .size64 (x.signExtend 64 * y.signExtend 64 -
          (x.signExtend 64 * y.signExtend 64).sdiv (z.signExtend 64) * z.signExtend 64))) := by
    simp [mulmodCode, execCode_cons, exec_sMulL, exec_sxtw, exec_sDiv, exec_mSub, ArithState.set,
      isOld, x, y, z]
  refine ⟨_, code, ?_⟩
  rw [ArithState.set_self, Value.read_written, ← Word.srem_eq, Word.srem_eq_ofInt, toInt_product,
    BitVec.toInt_signExtend_of_le (by decide), mulmod]

/-! ## Producers -/

/-- A binary instruction that has been selected, and a run of its code. -/
structure BinaryRun where
  P : Program
  F : FunctionData
  inst : Inst
  op : BinaryOp
  lhs : Inst
  rhs : Inst
  before : LowerContext
  after : LowerContext
  result : Reg
  selected : lowerBinary P F inst op lhs rhs before = some (result, after)
  /-- Nothing has been emitted for the instruction yet. -/
  fresh : before.irInst = []
  ty : P.typeOf F inst = some .int32
  operandTy : P.typeOf F lhs = some .int32 ∨ op.isCompare = true
  computes : ¬ Forwards P F op lhs rhs
  start : ArithState
  stop : ArithState
  ran : execCode start after.irInst = some stop

theorem BinaryRun.word (run : BinaryRun) :
    ∃ word, run.stop.regs run.result = @Value.written .size32 word := by
  obtain ⟨code, i, emitted, writes⟩ := lowerBinary_ends run.ty run.operandTy run.computes run.before
    run.result run.after run.selected run.result rfl
  have ran := run.ran
  rw [emitted, execCode, List.foldlM_append] at ran
  obtain ⟨s, -, last⟩ := Option.bind_eq_some_iff.mp ran
  obtain ⟨s', ran', ended⟩ := Option.bind_eq_some_iff.mp last
  cases ended
  exact writes s _ ran'

/-- A modular product whose operands are in registers, and a run of its code. -/
structure MulmodRun where
  P : Program
  F : FunctionData
  inst : Inst
  a : Reg
  b : Reg
  p : Reg
  before : LowerContext
  after : LowerContext
  result : Reg
  selected : expandMulmod P F inst a b p before = some (result, after)
  below : p.vreg < before.nextVreg
  code : List ArithInst
  emitted : after.irInst = before.irInst ++ code
  start : ArithState
  stop : ArithState
  ran : execCode start code = some stop

/-- The remainder of the product of the words in the operands' registers. -/
def MulmodRun.remainder (run : MulmodRun) : Int :=
  mulmod ((run.start.regs run.a).read .size32) ((run.start.regs run.b).read .size32)
    ((run.start.regs run.p).read .size32)

theorem MulmodRun.register (run : MulmodRun) :
    (run.stop.regs run.result).read .size64 = BitVec.ofInt 64 run.remainder := by
  have isCode : run.code = mulmodCode run.before.nextVreg run.result run.a run.b run.p :=
    List.append_cancel_left (run.emitted.symm.trans (expandMulmod_emits run.selected))
  obtain ⟨s, ran, left⟩ : ∃ s, execCode run.start (mulmodCode run.before.nextVreg run.result run.a
      run.b run.p) = some s ∧ (s.regs run.result).read .size64 = BitVec.ofInt 64 run.remainder :=
    execCode_mulmod run.start run.below
  have same : s = run.stop := by
    have ran' := run.ran
    rw [isCode, ran] at ran'
    exact Option.some.inj ran'
  rw [← same]
  exact left

/-- What has produced an `i32`. -/
inductive Producer where
  /-- A constant, cast, selection, load, lane or reduction: the last form writes a word. -/
  | word (value : BitVec 32)
  | binary (run : BinaryRun)
  | mulmod (run : MulmodRun)
  /-- A call or a parameter: the register as the other function has left it. -/
  | passed (register : BitVec 64)
  /-- A product or quotient by one. -/
  | forwarded (operand : Producer)

namespace Producer

/-- The contents of the register. -/
def register : Producer → BitVec 64
  | .word value => (@Value.written .size32 value).read .size64
  | .binary run => (run.stop.regs run.result).read .size64
  | .mulmod run => (run.stop.regs run.result).read .size64
  | .passed register => register
  | .forwarded operand => operand.register

/-- The value as an `i32`. -/
def value : Producer → BitVec 32
  | .word value => value
  | .binary run => (run.stop.regs run.result).read .size32
  | .mulmod run => BitVec.ofInt 32 run.remainder
  | .passed register => register.setWidth 32
  | .forwarded operand => operand.value

/-- Nothing stands above the word. -/
def Whole : Producer → Prop
  | .word _ | .binary _ => True
  | .mulmod run => 0 ≤ run.remainder ∧ run.remainder < 2 ^ 32
  | .passed register => register.toNat < 2 ^ 32
  | .forwarded operand => operand.Whole

theorem read64_written (word : BitVec 32) :
    (@Value.written .size32 word).read .size64 = word.setWidth 64 := by
  show (word.setWidth 128).setWidth 64 = word.setWidth 64
  rw [BitVec.setWidth_setWidth_of_le word (by decide)]

/-- The product of two words is far from the ends of 64 bits. -/
theorem remainder_bounds (run : MulmodRun) : -2 ^ 62 ≤ run.remainder ∧ run.remainder ≤ 2 ^ 62 := by
  unfold MulmodRun.remainder Mir.mulmod
  generalize (run.start.regs run.a).read .size32 = a
  generalize (run.start.regs run.b).read .size32 = b
  have left := Word.fits a
  have right := Word.fits b
  unfold Fits at left right
  have product : (a.toInt * b.toInt).natAbs ≤ 2 ^ 31 * 2 ^ 31 := by
    rw [Int.natAbs_mul]
    exact Nat.mul_le_mul (by omega) (by omega)
  have abs := Int.natAbs_tmod (a.toInt * b.toInt) ((run.start.regs run.p).read .size32).toInt
  have least := Nat.mod_le (a.toInt * b.toInt).natAbs
    ((run.start.regs run.p).read .size32).toInt.natAbs
  omega

theorem register_eq_iff (x : Producer) : x.register = x.value.setWidth 64 ↔ x.Whole := by
  induction x with
  | word value => exact iff_of_true (read64_written value) trivial
  | binary run =>
    obtain ⟨word, isWord⟩ := run.word
    refine iff_of_true ?_ trivial
    rw [register, value, isWord, read64_written, Value.read_written]
  | mulmod run =>
    have bounds := remainder_bounds run
    rw [register, value, Whole, run.register]
    generalize run.remainder = x at bounds
    constructor
    · intro same
      have sameNat := congrArg BitVec.toNat same
      rw [BitVec.toNat_setWidth, BitVec.toNat_ofInt, BitVec.toNat_ofInt] at sameNat
      omega
    · intro range
      apply BitVec.eq_of_toNat_eq
      rw [BitVec.toNat_setWidth, BitVec.toNat_ofInt, BitVec.toNat_ofInt]
      omega
  | passed x =>
    have size := x.isLt
    rw [register, value, Whole]
    constructor
    · intro same
      have sameNat := congrArg BitVec.toNat same
      rw [BitVec.toNat_setWidth, BitVec.toNat_setWidth] at sameNat
      omega
    · intro range
      apply BitVec.eq_of_toNat_eq
      rw [BitVec.toNat_setWidth, BitVec.toNat_setWidth]
      omega
  | forwarded operand ih => exact ih

end Producer

end AnonCompiler.Mir
