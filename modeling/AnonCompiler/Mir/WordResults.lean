import AnonCompiler.Mir.LowerArith

/-!
# Words in whole registers

An `i32` value lives in the low half of its register.  What stands in the upper half depends
on the instruction that wrote the register: the 32-bit forms clear it.  `Ends` follows the
selection of a binary instruction to the last instruction it emits (`lowerBinary_ends`).
-/

set_option autoImplicit false

namespace AnonCompiler.Mir

open Ir LowerContext

/-- The instruction leaves a word in the register, and nothing above it. -/
def WritesWord (i : ArithInst) (r : Reg) : Prop :=
  ∀ s s', ArithInst.exec i s = some s' → ∃ word, s'.regs r = @Value.written .size32 word

/-- The last instruction that is emitted writes a word to the register that the outcome
names. -/
def Ends {α : Type} (target : α → Option Reg) (m : LowerM α) : Prop :=
  ∀ c a c', m c = some (a, c') → ∀ r, target a = some r →
    ∃ code i, c'.irInst = code ++ [i] ∧ WritesWord i r

/-! ## Single instructions -/

section Writes

variable {i : ArithInst} {dst r r' r'' : Reg}

theorem writesWord_of_exec
    (exec : ∀ s, ∃ word, ArithInst.exec i s = some (s.set dst (@Value.written .size32 word))) :
    WritesWord i dst := by
  intro s s' ran
  obtain ⟨word, exec⟩ := exec s
  rw [exec] at ran
  cases ran
  exact ⟨word, s.set_self dst _⟩

theorem writesWord_aluRRR (op : AluOp) (lhs rhs : RegOrZr) :
    WritesWord (.aluRRR op .size32 dst lhs rhs) dst :=
  writesWord_of_exec fun s => ⟨_, exec_aluRRR s .size32 dst op lhs rhs⟩

theorem writesWord_aluRRImm12 (op : AluOp) (imm : Imm12) :
    WritesWord (.aluRRImm12 op .size32 dst r imm) dst :=
  writesWord_of_exec fun s => ⟨_, exec_aluRRImm12 s .size32 dst op r imm⟩

theorem writesWord_aluRRImmLogic (op : AluOp) (src : RegOrZr) (imm : ImmLogic) :
    WritesWord (.aluRRImmLogic op .size32 dst src imm) dst :=
  writesWord_of_exec fun s => ⟨_, exec_aluRRImmLogic s .size32 dst op src imm⟩

theorem writesWord_aluRRImmShift (op : AluOp) (shift : Nat) :
    WritesWord (.aluRRImmShift op .size32 dst r shift) dst :=
  writesWord_of_exec fun s => ⟨_, exec_aluRRImmShift s .size32 dst op r shift⟩

theorem writesWord_aluRRRShift (op : AluOp) (lhs : RegOrZr) (shift : ShiftOp) (amount : Nat) :
    WritesWord (.aluRRRShift op .size32 dst lhs r shift amount) dst :=
  writesWord_of_exec fun s => ⟨_, exec_aluRRRShift s .size32 dst op lhs r shift amount⟩

theorem writesWord_mAdd : WritesWord (.mAdd .size32 dst r r' r'') dst :=
  writesWord_of_exec fun s => ⟨_, exec_mAdd s .size32 dst r r' r''⟩

theorem writesWord_mSub : WritesWord (.mSub .size32 dst r r' r'') dst :=
  writesWord_of_exec fun s => ⟨_, exec_mSub s .size32 dst r r' r''⟩

theorem writesWord_sDiv : WritesWord (.sDiv .size32 dst r r') dst :=
  writesWord_of_exec fun s => ⟨_, exec_sDiv s .size32 dst r r'⟩

theorem writesWord_mov : WritesWord (.mov .size32 dst r) dst :=
  writesWord_of_exec fun s => ⟨_, exec_mov s .size32 dst r⟩

theorem writesWord_movFromZero : WritesWord (.movFromZero .size32 dst) dst :=
  writesWord_of_exec fun s => ⟨_, exec_movFromZero s .size32 dst⟩

theorem writesWord_cSet (cond : Cond) : WritesWord (.cSet cond dst) dst := by
  refine writesWord_of_exec fun s => ⟨if cond.holds s.flags then 1 else 0, ?_⟩
  have word : (if cond.holds s.flags then 1 else 0 : Value) =
      @Value.written .size32 (if cond.holds s.flags then 1 else 0) := by
    cases cond.holds s.flags <;> rfl
  rw [← word]
  simp [ArithInst.exec, MInst.results, MInst.defs, MInst.flagsAfter, assign_single, ArithState.set]

end Writes

/-! ## The last instruction -/

namespace Ends

variable {α β : Type} {target : α → Option Reg} {target' : β → Option Reg} {m : LowerM α}
  {i : ArithInst}
  {r : Reg}

theorem emit (writes : WritesWord i r) : Ends (fun _ => some r) (LowerContext.emit i) := by
  intro c a c' run r' isTarget
  cases run
  cases isTarget
  exact ⟨c.irInst, i, rfl, writes⟩

theorem fails : Ends target fun _ => none := by
  intro c a c' run
  cases run

theorem bind {f : α → LowerM β} (ends : ∀ a, Ends target' (f a)) : Ends target' (m >>= f) := by
  intro c b c' run
  obtain ⟨⟨a, c₁⟩, -, second⟩ := Option.bind_eq_some_iff.mp run
  exact ends a c₁ b c' second

/-- What follows does not emit and names the register that has been written. -/
theorem done {f : α → β} (ends : Ends target m)
    (same : ∀ a r, target' (f a) = some r → target a = some r) :
    Ends target' (m >>= fun a => pure (f a)) := by
  intro c b c' run r isTarget
  obtain ⟨⟨a, c₁⟩, first, second⟩ := Option.bind_eq_some_iff.mp run
  cases second
  exact ends c a _ first r (same a r isTarget)

/-- No register is named. -/
theorem silent {a : α} (none : target a = none) : Ends target (pure a) := by
  intro c b c' run r isTarget
  cases run
  rw [none] at isTarget
  cases isTarget

/-- An attempt that may be refused, and what is done instead. -/
theorem orElse {attempt : LowerM Bool} {rest : LowerM β} {b : β}
    (accepts : Ends (fun accepted => if accepted then some r else none) attempt)
    (same : ∀ r', target' b = some r' → r = r') (refuses : Ends target' rest) :
    Ends target' (attempt >>= fun accepted => if accepted then pure b else rest) := by
  intro c b' c' run r' isTarget
  obtain ⟨⟨accepted, c₁⟩, first, second⟩ := Option.bind_eq_some_iff.mp run
  cases accepted with
  | true =>
    cases second
    exact accepts c true _ first r' (congrArg some (same r' isTarget))
  | false => exact refuses c₁ b' c' second r' isTarget

/-- Emit, and answer with the register. -/
theorem emitted (writes : WritesWord i r) : Ends some (LowerContext.emit i >>= fun _ => pure r) :=
  done (emit writes) fun _ _ same => same

end Ends

/-! ## Selections that write a given register -/

section Writing

variable {P : Program} {F : FunctionData} {inst lhs rhs : Inst} {op : BinaryOp} {dst lhsReg : Reg}

theorem lowerRegisterForm_ends : Ends (fun _ => some dst)
    (lowerRegisterForm P F inst op rhs .size32 dst lhsReg) := by
  unfold lowerRegisterForm
  refine .bind fun alu => .bind fun folded => ?_
  cases folded with
  | some found => exact .emit (writesWord_aluRRRShift alu _ _ _)
  | none => exact .bind fun rhs => .emit (writesWord_aluRRR alu _ _)

theorem lowerAddSub_ends : Ends (fun _ => some dst)
    (lowerAddSub P F inst op lhs rhs .size32 dst lhsReg) := by
  unfold lowerAddSub
  extract_lets lhsImm rhsImm
  split
  · exact .bind fun rhs => .emit writesWord_mov
  · split
    · exact .emit writesWord_mov
    · split
      · exact .bind fun rhs => .emit (writesWord_aluRRR .sub _ _)
      · split
        · exact .emit (writesWord_aluRRImm12 _ _)
        · exact lowerRegisterForm_ends

theorem lowerLogic_ends : Ends (fun _ => some dst)
    (lowerLogic P F inst op lhs rhs .size32 dst lhsReg) := by
  unfold lowerLogic
  extract_lets lhsImm rhsImm
  split
  · exact .emit writesWord_movFromZero
  · split
    · exact .bind fun rhs => .emit writesWord_mov
    · split
      · exact .emit writesWord_mov
      · split
        · exact .bind fun alu => .emit (writesWord_aluRRImmLogic alu _ _)
        · exact lowerRegisterForm_ends

theorem lowerShift_ends : Ends (fun _ => some dst)
    (lowerShift P F op rhs .size32 dst lhsReg) := by
  unfold lowerShift
  refine .bind fun alu => ?_
  split
  · exact .emit (writesWord_aluRRImmShift alu _)
  · exact .bind fun rhs => .emit (writesWord_aluRRR alu _ _)

theorem lowerCompare_ends (size : OperandSize) : Ends (fun _ => some dst)
    (lowerCompare P F op rhs size dst lhsReg) := by
  unfold lowerCompare
  split
  · exact .bind fun _ => .bind fun cond => .emit (writesWord_cSet cond)
  · exact .bind fun _ => .bind fun _ => .bind fun cond => .emit (writesWord_cSet cond)

theorem lowerGeneral_ends : Ends (fun _ => some dst)
    (lowerGeneral P F inst op lhs rhs .size32 dst lhsReg) := by
  unfold lowerGeneral
  cases op with
  | add | sub => exact lowerAddSub_ends
  | and | or | xor => exact lowerLogic_ends
  | shl | shr | sar => exact lowerShift_ends
  | mul => exact .bind fun rhs => .emit (writesWord_aluRRR .mul _ _)
  | div => exact .bind fun rhs => .emit writesWord_sDiv
  | rem => exact .bind fun quotient => .bind fun rhs => .bind fun _ => .emit writesWord_mSub
  | eq | notEq | gt | lt | ge | le => exact lowerCompare_ends .size32
  | min | max => exact .fails

/-- A division that has been selected. -/
def selected (dst : Reg) (accepted : Bool) : Option Reg := if accepted then some dst else none

theorem lowerSignedDivRemPowerOfTwo_ends (divisor : BitVec 32) :
    Ends (selected dst) (lowerSignedDivRemPowerOfTwo op dst lhsReg divisor) := by
  unfold lowerSignedDivRemPowerOfTwo
  split
  · exact .silent rfl
  · split
    · exact .done (.emit (writesWord_aluRRR .sub _ _)) fun _ _ same => same
    · exact .done (.emit writesWord_mov) fun _ _ same => same
    · exact .done (.emit writesWord_movFromZero) fun _ _ same => same
    · exact .silent rfl
  · next shift negateQuotient _ _ =>
      refine .bind fun sign => .bind fun _ => .bind fun _ => .bind fun biased => .bind fun _ =>
        .bind fun _ => ?_
      extract_lets finish
      have ends : ∀ quotient, (op = .div → negateQuotient = false → quotient = dst) →
          Ends (selected dst) (finish quotient) := by
        intro quotient same
        refine .bind fun shift => ?_
        cases op with
        | div =>
          cases negateQuotient with
          | true => exact .bind fun _ => .done (.emit (writesWord_aluRRR .sub _ _)) fun _ _ h => h
          | false =>
            rw [same rfl rfl]
            exact .done (.emit (writesWord_aluRRImmShift .asr _)) fun _ _ h => h
        | rem =>
          exact .bind fun _ => .done (.emit (writesWord_aluRRRShift .sub _ _ _)) fun _ _ h => h
        | _ => exact .bind fun _ => .silent rfl
      split
      · next separate =>
          refine .bind fun quotient => ends quotient fun isDiv positive => ?_
          rw [isDiv, positive] at separate
          simp at separate
      · exact ends dst fun _ _ => rfl

theorem lowerSignedDivRemMagic_ends (divisor : BitVec 32) :
    Ends (selected dst) (lowerSignedDivRemMagic op dst lhsReg divisor) := by
  unfold lowerSignedDivRemMagic
  split
  · exact .silent rfl
  · refine .bind fun found => ?_
    cases found with
    | none => exact .silent rfl
    | some magic =>
      refine .bind fun multiplier => .bind fun shifted => ?_
      extract_lets answer finish
      have ends : ∀ quotient, (op ≠ .rem → quotient = dst) →
          Ends (selected dst) (finish quotient) := by
        intro quotient same
        refine .bind fun sign => ?_
        by_cases isRem : op = .rem
        · refine .bind fun _ => ?_
          rw [if_pos isRem]
          exact .bind fun divisorReg => .done (.emit writesWord_mSub) fun _ _ h => h
        · simp only [if_neg isRem, same isRem]
          exact .done (.emit (writesWord_aluRRRShift .add _ _ _)) fun _ _ h => h
      split
      · next isRem => exact .bind fun quotient => ends quotient fun notRem => absurd isRem notRem
      · exact ends dst fun _ => rfl

theorem lowerDivRemConstant_ends (rhsImm : Option (BitVec 32)) :
    Ends (selected dst) (lowerDivRemConstant P F inst op rhsImm dst lhsReg) := by
  unfold lowerDivRemConstant
  split
  · cases rhsImm with
    | none => exact .silent rfl
    | some divisor =>
      exact .orElse (lowerSignedDivRemPowerOfTwo_ends divisor)
        (fun _ same => Option.some.inj same)
        (lowerSignedDivRemMagic_ends divisor)
  · exact .silent rfl

end Writing

/-! ## The selection of a binary instruction -/

section Binary

variable {P : Program} {F : FunctionData} {inst lhs rhs : Inst} {op : BinaryOp} {dst : Reg}

variable (P F) in
/-- A multiplication or division by one hands on the register of the other operand. -/
def Forwards (op : BinaryOp) (lhs rhs : Inst) : Prop :=
  op = .mul ∧ (integerConstant P F lhs).or (integerConstant P F rhs) = some 1 ∨
    op = .div ∧ integerConstant P F rhs = some 1

theorem tryFoldMulConstant_ends (ty : P.typeOf F inst = some .int32)
    (apart : (integerConstant P F lhs).or (integerConstant P F rhs) ≠ some 1) :
    Ends id (tryFoldMulConstant P F inst lhs rhs dst) := by
  have size : (expect ((P.typeOf F inst).bind operandSize) : LowerM OperandSize) =
      pure .size32 := by
    rw [ty]
    rfl
  unfold tryFoldMulConstant
  extract_lets lhsImm rhsImm
  split
  · exact .silent rfl
  · next value isValue =>
      refine .bind fun x => ?_
      rw [if_neg fun one => apart (isValue.trans (congrArg some one)), size, pure_bind]
      split
      · exact .silent rfl
      · exact .done (.emit (writesWord_aluRRImmShift .lsl _)) fun _ _ same => same
      · exact .done (.emit (writesWord_aluRRRShift .add _ _ _)) fun _ _ same => same
      · exact .done (.emit (writesWord_aluRRRShift .sub _ _ _)) fun _ _ same => same
      · exact .done (.emit (writesWord_aluRRRShift .sub _ _ _)) fun _ _ same => same

theorem lowerUnfused_ends (apart : ¬ (op = .div ∧ integerConstant P F rhs = some 1)) :
    Ends some (lowerUnfused P F inst op lhs rhs .size32 dst) := by
  unfold lowerUnfused
  split
  · exact .bind fun rhs => .emitted (writesWord_aluRRR .orn _ _)
  · exact .bind fun lhsReg => .orElse (lowerDivRemConstant_ends _)
      (fun _ same => Option.some.inj same) (.done lowerGeneral_ends fun _ _ same => same)

/-- Comparisons are not fused. -/
theorem foldMulAddSub_compare (compares : op.isCompare = true) (size : OperandSize) :
    foldMulAddSub P F inst op lhs rhs size = pure none := by
  cases op <;> first | rfl | cases compares

theorem lowerUnfused_compare_ends (compares : op.isCompare = true) (size : OperandSize) :
    Ends some (lowerUnfused P F inst op lhs rhs size dst) := by
  have general : ∀ lhsReg, Ends (fun _ => some dst)
      (lowerGeneral P F inst op lhs rhs size dst lhsReg) := by
    intro lhsReg
    cases op with
    | eq | notEq | gt | lt | ge | le => exact lowerCompare_ends size
    | _ => cases compares
  unfold lowerUnfused
  rw [if_neg (by rintro ⟨rfl, -⟩; cases compares)]
  refine .bind fun lhsReg => ?_
  rw [if_neg (by rintro ⟨rfl, -⟩; cases compares)]
  exact .orElse (lowerDivRemConstant_ends _) (fun _ same => Option.some.inj same)
    (.done (general lhsReg) fun _ _ same => same)

/-- The code of a binary instruction with an `i32` result ends with an instruction that leaves
a word in the register of the result, unless it hands on the register of an operand. -/
theorem lowerBinary_ends (ty : P.typeOf F inst = some .int32)
    (operandTy : P.typeOf F lhs = some .int32 ∨ op.isCompare = true)
    (computes : ¬ Forwards P F op lhs rhs) : Ends some (lowerBinary P F inst op lhs rhs) := by
  unfold lowerBinary
  refine .bind fun dst => ?_
  rcases operandTy with lhsTy | compares
  swap
  · refine .bind fun size => ?_
    rw [foldMulAddSub_compare compares, pure_bind]
    have notMul : op ≠ .mul := by
      rintro rfl
      cases compares
    simp only [if_neg notMul, pure_bind]
    exact lowerUnfused_compare_ends compares size
  have size : (expect ((P.typeOf F lhs).bind operandSize) : LowerM OperandSize) =
      pure .size32 := by
    rw [lhsTy]
    rfl
  rw [size, pure_bind]
  refine .bind fun fused => ?_
  have unfused : Ends some (lowerUnfused P F inst op lhs rhs .size32 dst) :=
    lowerUnfused_ends fun byOne => computes (.inr byOne)
  split
  · exact .emitted writesWord_mAdd
  · exact .emitted writesWord_mSub
  · exact .fails
  · by_cases isMul : op = .mul
    · rw [if_pos isMul]
      intro c r c' run r' isTarget
      obtain ⟨⟨folded, c₁⟩, first, second⟩ := Option.bind_eq_some_iff.mp run
      cases folded with
      | some output =>
        cases second
        exact tryFoldMulConstant_ends ty (fun one => computes (.inl ⟨isMul, one⟩)) c _ _ first r'
          isTarget
      | none => exact unfused c₁ r c' second r' isTarget
    · rw [if_neg isMul, pure_bind]
      exact unfused

end Binary

end AnonCompiler.Mir
