import AnonCompiler.Mir.DivMagic
import AnonCompiler.Mir.LowerContext

/-!
# Selection of integer arithmetic

`anon_armv8/src/lower/arith.rs` for integers.  A constant operand selects a special form:
a shift, a shifted operand, an immediate, a short sequence for a division.  A product that
only a sum uses becomes part of it, and so does a shift that only one instruction uses.
The branches of `lower_binary` for vectors and floating point are left out.
-/

set_option autoImplicit false

namespace AnonCompiler.Mir

open Ir LowerContext

/-! ## Immediates -/

def ImmShift.new (value : Nat) (size : OperandSize) : Option Nat :=
  if value < size.bits then some value else none

def Imm12.new (value : Nat) (shift12 : Bool) : Option Imm12 :=
  if valid : value ≤ 0xfff then some ⟨value, shift12, valid⟩ else none

/-- `u8::try_from` -/
def toU8 (value : BitVec 32) : Option Nat :=
  if 0 ≤ value.toInt ∧ value.toInt ≤ 255 then some value.toInt.toNat else none

def trailingZeros (width n : Nat) : Nat := ((List.range width).find? n.testBit).getD width

def integerBits (value : BitVec 32) : OperandSize → BitVec 64
  | .size32 => value.setWidth 64
  | .size64 => value.signExtend 64

def operandSize : Ty → Option OperandSize
  | .int32 => some .size32
  | .pointer _ | .string => some .size64
  | _ => none

def aluOp : BinaryOp → Option AluOp
  | .add => some .add
  | .sub => some .sub
  | .mul => some .mul
  | .and => some .and
  | .or => some .orr
  | .xor => some .eor
  | .shl => some .lsl
  | .shr => some .lsr
  | .sar => some .asr
  | _ => none

def comparisonCond : BinaryOp → Option Cond
  | .eq => some .eq
  | .notEq => some .ne
  | .gt => some .gt
  | .lt => some .lt
  | .ge => some .ge
  | .le => some .le
  | _ => none

def signedPowerOfTwo (value : BitVec 32) : Option (Nat × Bool) :=
  if value = 0 then none
  else if value.toInt.natAbs.isPowerOfTwo then
    some (trailingZeros 32 value.toInt.natAbs, decide (value.toInt < 0))
  else none

/-- A magnitude as an immediate, plain or shifted. -/
def magnitudeImm12 (magnitude : Nat) : Option Imm12 :=
  if magnitude ≤ 0xfff then Imm12.new magnitude false
  else if magnitude % 4096 = 0 ∧ magnitude / 4096 ≤ 0xfff then Imm12.new (magnitude / 4096) true
  else none

def addSubImmediate (op : BinaryOp) (value : Option (BitVec 32)) : Option (AluOp × Imm12) :=
  value.bind fun value =>
    match op, decide (value.toInt < 0) with
    | .add, false | .sub, true => (magnitudeImm12 value.toInt.natAbs).map (AluOp.add, ·)
    | .sub, false | .add, true => (magnitudeImm12 value.toInt.natAbs).map (AluOp.sub, ·)
    | _, _ => none

def positiveImm12 (value : BitVec 32) : Option Imm12 :=
  if value.toInt < 0 then none else magnitudeImm12 value.toNat

/-- A rewrite of `x * constant` as one instruction. -/
inductive MulConstForm where
  /-- `x << n` for `2 ^ n` -/
  | lsl (shift : Nat)
  /-- `x + (x << n)` for `2 ^ n + 1` -/
  | addLsl (amount : Nat)
  /-- `x - (x << n)` for `-(2 ^ n - 1)` -/
  | subLsl (amount : Nat)
  /-- `0 - (x << n)` for `-2 ^ n` -/
  | negLsl (amount : Nat)
deriving DecidableEq, Repr

def pow2Shift (value : Nat) (size : OperandSize) : Option Nat :=
  ImmShift.new (trailingZeros 64 value) size

def foldMulConstant (value : BitVec 32) (size : OperandSize) : Option MulConstForm :=
  let magnitude := value.toInt.natAbs
  if 1 < value.toInt ∧ value.toNat.isPowerOfTwo then
    (pow2Shift value.toNat size).map MulConstForm.lsl
  else if 2 < value.toInt ∧ (value.toNat - 1).isPowerOfTwo then
    (pow2Shift (value.toNat - 1) size).map MulConstForm.addLsl
  else if value.toInt < 0 ∧ (magnitude + 1).isPowerOfTwo then
    (pow2Shift (magnitude + 1) size).map MulConstForm.subLsl
  else if value.toInt < -1 ∧ magnitude.isPowerOfTwo then
    (pow2Shift magnitude size).map MulConstForm.negLsl
  else none

/-! ## Division by a constant -/

def expect {α : Type} (value : Option α) : LowerM α := StateT.lift value

def lowerSignedDivRemPowerOfTwo (op : BinaryOp) (dst lhs : Reg) (divisor : BitVec 32) :
    LowerM Bool :=
  match signedPowerOfTwo divisor with
  | none => pure false
  | some (0, negateQuotient) =>
    match op, negateQuotient with
    | .div, true => do
        emit (.aluRRR .sub .size32 dst .zr (.reg lhs))
        pure true
    | .div, false => do
        emit (.mov .size32 dst lhs)
        pure true
    | .rem, _ => do
        emit (.movFromZero .size32 dst)
        pure true
    | _, _ => pure false
  | some (shift, negateQuotient) => do
      let sign ← allocTmp .int32
      let signShift ← expect (ImmShift.new 31 .size32)
      emit (.aluRRImmShift .asr .size32 sign lhs signShift)
      let biased ← allocTmp .int32
      let biasShift ← expect (ImmShift.new (32 - shift) .size32)
      emit (.aluRRRShift .add .size32 biased (.reg lhs) sign .lsr biasShift)
      let quotient ← if op = .rem ∨ negateQuotient then allocTmp .int32 else pure dst
      let shift ← expect (ImmShift.new shift .size32)
      emit (.aluRRImmShift .asr .size32 quotient biased shift)
      match op, negateQuotient with
      | .div, true => do
          emit (.aluRRR .sub .size32 dst .zr (.reg quotient))
          pure true
      | .div, false => pure true
      | .rem, _ => do
          emit (.aluRRRShift .sub .size32 dst (.reg lhs) quotient .lsl shift)
          pure true
      | _, _ => pure false

/-- The register of a constant of the division, shared when the divisor is. -/
def magicConst (value divisor : BitVec 32) : LowerM Reg := do
  match ← sharedConst value.toNat divisor.toNat with
  | some reg => pure reg
  | none => do
      let reg ← allocTmp .int32
      emit (.loadImm .size32 reg (value.setWidth 64))
      pure reg

/-- The high half of the product with its correction, shifted. -/
def magicShift (magic : SignedMagic) (lhs product shifted : Reg) : LowerM Unit := do
  match magic.correction with
  | .none => do
      let shift ← expect (ImmShift.new (32 + magic.shift) .size64)
      emit (.aluRRImmShift .asr .size64 shifted product shift)
  | correction => do
      let high ← allocTmp .int32
      let half ← expect (ImmShift.new 32 .size64)
      emit (.aluRRImmShift .asr .size64 high product half)
      let corrected ← if magic.shift = 0 then pure shifted else allocTmp .int32
      emit (.aluRRR (if correction = .addNumerator then .add else .sub) .size32 corrected
        (.reg high) (.reg lhs))
      if magic.shift ≠ 0 then
        let shift ← expect (ImmShift.new magic.shift .size32)
        emit (.aluRRImmShift .asr .size32 shifted corrected shift)

def magicShifted (magic : SignedMagic) (lhs multiplier : Reg) : LowerM Reg := do
  let product ← allocTmp (.pointer .int32)
  emit (.sMulL product lhs multiplier)
  let shifted ← allocTmp .int32
  magicShift magic lhs product shifted
  pure shifted

def lowerSignedDivRemMagic (op : BinaryOp) (dst lhs : Reg) (divisor : BitVec 32) : LowerM Bool := do
  if op ≠ .div ∧ op ≠ .rem then pure false
  else
    match ← expect (signedMagicI32 64 divisor) with
    | none => pure false
    | some magic => do
        let multiplier ← magicConst magic.multiplier divisor
        let shifted ← magicShifted magic lhs multiplier
        let quotient ← if op = .rem then allocTmp .int32 else pure dst
        let sign ← expect (ImmShift.new 31 .size32)
        emit (.aluRRRShift .add .size32 quotient (.reg shifted) shifted .lsr sign)
        if op = .rem then
          let divisorReg ← magicConst divisor divisor
          emit (.mSub .size32 dst quotient divisorReg lhs)
        pure true

/-! ## Folding producers -/

section Arena

variable (P : Program) (F : FunctionData)

def integerConstant (inst : Inst) : Option (BitVec 32) :=
  match kindIn P F inst with
  | some (.integer value) => some value
  | _ => none

def isMul (inst : Inst) : Bool :=
  match kindIn P F inst with
  | some (.binary .mul _ _) => true
  | _ => false

/-- The types of the values of a fused product must agree. -/
def fusionTypesMatch (size : OperandSize) (values : List Inst) : Bool :=
  values.all fun inst =>
    match P.typeOf F inst with
    | some .int32 => size = .size32
    | some (.pointer _) => size = .size64
    | _ => false

def foldMulAddSub (consumer : Inst) (op : BinaryOp) (lhs rhs : Inst) (size : OperandSize) :
    LowerM (Option (BinaryOp × Reg × Reg × Reg)) := do
  let candidate : Option (Inst × Inst) :=
    match op, isMul P F lhs, isMul P F rhs with
    | .add, false, true => some (rhs, lhs)
    | .add, true, false => some (lhs, rhs)
    | .sub, false, true => some (rhs, lhs)
    | .add, true, true => some (lhs, rhs)
    | _, _, _ => none
  match candidate with
  | none => pure none
  | some (mulInst, addend) =>
    match kindIn P F mulInst with
    | some (.binary .mul mulLhs mulRhs) =>
      if !fusionTypesMatch P F size [consumer, lhs, rhs, mulInst, mulLhs, mulRhs] ∨
          F.parentBlock mulInst ≠ F.parentBlock consumer then pure none
      else if ← sinkPureSingleUseProducer P F mulInst consumer then do
        let lhs ← putValueInReg P F mulLhs
        let rhs ← putValueInReg P F mulRhs
        let addend ← putValueInReg P F addend
        pure (some (op, lhs, rhs, addend))
      else pure none
    | _ => pure none

def shiftOp : BinaryOp → Option ShiftOp
  | .shl => some .lsl
  | .shr => some .lsr
  | .sar => some .asr
  | _ => none

def foldShiftedRhs (consumer rhs : Inst) (size : OperandSize) :
    LowerM (Option (Reg × ShiftOp × Nat)) :=
  match kindIn P F rhs with
  | some (.binary op shiftLhs shiftRhs) =>
    match shiftOp op, ((integerConstant P F shiftRhs).bind toU8).bind (ImmShift.new · size) with
    | some op, some amount => do
        if ← sinkPureSingleUseProducer P F rhs consumer then do
          let input ← putValueInReg P F shiftLhs
          pure (some (input, op, amount))
        else pure none
    | _, _ => pure none
  | _ => pure none

def tryFoldMulConstant (inst lhs rhs : Inst) (dst : Reg) : LowerM (Option Reg) := do
  let lhsImm := integerConstant P F lhs
  let rhsImm := integerConstant P F rhs
  match lhsImm.or rhsImm with
  | none => pure none
  | some value => do
      let x ← putValueInReg P F (if lhsImm.isSome then rhs else lhs)
      if value = 1 then pure (some x)
      else
        let size ← expect ((P.typeOf F inst).bind operandSize)
        match foldMulConstant value size with
        | none => pure none
        | some (.lsl shift) => do
            emit (.aluRRImmShift .lsl size dst x shift)
            pure (some dst)
        | some (.addLsl amount) => do
            emit (.aluRRRShift .add size dst (.reg x) x .lsl amount)
            pure (some dst)
        | some (.subLsl amount) => do
            emit (.aluRRRShift .sub size dst (.reg x) x .lsl amount)
            pure (some dst)
        | some (.negLsl amount) => do
            emit (.aluRRRShift .sub size dst .zr x .lsl amount)
            pure (some dst)

/-! ## The selection -/

/-- A shifted operand on the right, or a register. -/
def lowerRegisterForm (inst : Inst) (op : BinaryOp) (rhs : Inst) (size : OperandSize)
    (dst lhs : Reg) : LowerM Unit := do
  let alu ← expect (aluOp op)
  match ← foldShiftedRhs P F inst rhs size with
  | some (rhs, shift, amount) => emit (.aluRRRShift alu size dst (.reg lhs) rhs shift amount)
  | none => do
      let rhs ← putValueInReg P F rhs
      emit (.aluRRR alu size dst (.reg lhs) (.reg rhs))

def lowerAddSub (inst : Inst) (op : BinaryOp) (lhs rhs : Inst) (size : OperandSize)
    (dst lhsReg : Reg) : LowerM Unit := do
  let lhsImm := integerConstant P F lhs
  let rhsImm := integerConstant P F rhs
  if op = .add ∧ lhsImm = some 0 then do
    let rhs ← putValueInReg P F rhs
    emit (.mov size dst rhs)
  else if rhsImm = some 0 then emit (.mov size dst lhsReg)
  else if op = .sub ∧ lhsImm = some 0 then do
    let rhs ← putValueInReg P F rhs
    emit (.aluRRR .sub size dst .zr (.reg rhs))
  else
    match addSubImmediate op rhsImm with
    | some (op, imm) => emit (.aluRRImm12 op size dst lhsReg imm)
    | none => lowerRegisterForm P F inst op rhs size dst lhsReg

def lowerLogic (inst : Inst) (op : BinaryOp) (lhs rhs : Inst) (size : OperandSize)
    (dst lhsReg : Reg) : LowerM Unit := do
  let lhsImm := integerConstant P F lhs
  let rhsImm := integerConstant P F rhs
  if op = .and ∧ (lhsImm = some 0 ∨ rhsImm = some 0) then emit (.movFromZero size dst)
  else if (op = .or ∨ op = .xor) ∧ lhsImm = some 0 then do
    let rhs ← putValueInReg P F rhs
    emit (.mov size dst rhs)
  else if (op = .or ∨ op = .xor) ∧ rhsImm = some 0 then emit (.mov size dst lhsReg)
  else
    match rhsImm.bind fun value => ImmLogic.new (integerBits value size) size with
    | some imm => do
        let alu ← expect (aluOp op)
        emit (.aluRRImmLogic alu size dst (.reg lhsReg) imm)
    | none => lowerRegisterForm P F inst op rhs size dst lhsReg

def lowerShift (op : BinaryOp) (rhs : Inst) (size : OperandSize) (dst lhsReg : Reg) :
    LowerM Unit := do
  let alu ← expect (aluOp op)
  match ((integerConstant P F rhs).bind toU8).bind (ImmShift.new · size) with
  | some shift => emit (.aluRRImmShift alu size dst lhsReg shift)
  | none => do
      let rhs ← putValueInReg P F rhs
      emit (.aluRRR alu size dst (.reg lhsReg) (.reg rhs))

def lowerCompare (op : BinaryOp) (rhs : Inst) (size : OperandSize) (dst lhsReg : Reg) :
    LowerM Unit := do
  match (integerConstant P F rhs).bind positiveImm12 with
  | some imm => emit (.cmpImm size lhsReg imm)
  | none => do
      let rhs ← putValueInReg P F rhs
      emit (.cmpRR size lhsReg (.reg rhs))
  let cond ← expect (comparisonCond op)
  emit (.cSet cond dst)

/-- The `match` at the end of `lower_binary`. -/
def lowerGeneral (inst : Inst) (op : BinaryOp) (lhs rhs : Inst) (size : OperandSize)
    (dst lhsReg : Reg) : LowerM Unit :=
  match op with
  | .add | .sub => lowerAddSub P F inst op lhs rhs size dst lhsReg
  | .and | .or | .xor => lowerLogic P F inst op lhs rhs size dst lhsReg
  | .shl | .shr | .sar => lowerShift P F op rhs size dst lhsReg
  | .mul => do
      let rhs ← putValueInReg P F rhs
      emit (.aluRRR .mul size dst (.reg lhsReg) (.reg rhs))
  | .div => do
      let rhs ← putValueInReg P F rhs
      emit (.sDiv size dst lhsReg rhs)
  | .rem => do
      let quotient ← allocTmp .int32
      let rhs ← putValueInReg P F rhs
      emit (.sDiv size quotient lhsReg rhs)
      emit (.mSub size dst quotient rhs lhsReg)
  | .eq | .notEq | .gt | .lt | .ge | .le => lowerCompare P F op rhs size dst lhsReg
  | .min | .max => fun _ => none

/-- A signed division or remainder of an `i32` by a constant. -/
def lowerDivRemConstant (inst : Inst) (op : BinaryOp) (rhsImm : Option (BitVec 32))
    (dst lhs : Reg) : LowerM Bool :=
  if P.typeOf F inst = some .int32 ∧ (op = .div ∨ op = .rem) then
    match rhsImm with
    | none => pure false
    | some divisor => do
        if ← lowerSignedDivRemPowerOfTwo op dst lhs divisor then pure true
        else lowerSignedDivRemMagic op dst lhs divisor
  else pure false

/-- What follows when neither a product was fused nor a multiplication folded. -/
def lowerUnfused (inst : Inst) (op : BinaryOp) (lhs rhs : Inst) (size : OperandSize) (dst : Reg) :
    LowerM Reg :=
  if op = .sub ∧ integerConstant P F lhs = some (-1) then do
    let rhs ← putValueInReg P F rhs
    emit (.aluRRR .orn size dst .zr (.reg rhs))
    pure dst
  else do
    let lhsReg ← putValueInReg P F lhs
    if op = .div ∧ integerConstant P F rhs = some 1 then pure lhsReg
    else if ← lowerDivRemConstant P F inst op (integerConstant P F rhs) dst lhsReg then pure dst
    else do
      lowerGeneral P F inst op lhs rhs size dst lhsReg
      pure dst

/-- `lower_binary`, from where vectors and floating point have been taken care of. -/
def lowerBinary (inst : Inst) (op : BinaryOp) (lhs rhs : Inst) : LowerM Reg := do
  let dst ← resultReg P F inst
  let size ← expect ((P.typeOf F lhs).bind operandSize)
  match ← foldMulAddSub P F inst op lhs rhs size with
  | some (.add, lhs, rhs, addend) => do
      emit (.mAdd size dst lhs rhs addend)
      pure dst
  | some (.sub, lhs, rhs, addend) => do
      emit (.mSub size dst lhs rhs addend)
      pure dst
  | some _ => fun _ => none
  | none => do
      let folded ← if op = .mul then tryFoldMulConstant P F inst lhs rhs dst else pure none
      match folded with
      | some output => pure output
      | none => lowerUnfused P F inst op lhs rhs size dst

end Arena

end AnonCompiler.Mir
