import AnonCompiler.Lib.PowerDivision
import AnonCompiler.Mir.LowerArith
import Mathlib.Data.BitVec

/-!
# What the immediates stand for

The special forms compute what the operation on the constant computes: an immediate is the
magnitude of the constant, a shifted operand is a multiple by a power of two, a condition
after a comparison is the comparison.
-/

set_option autoImplicit false

namespace AnonCompiler.Mir

open Ir Lib

/-! ## Immediates -/

variable {k n : Nat} {op : BinaryOp}

theorem ImmShift.new_eq_some {value shift : Nat} {size : OperandSize} :
    ImmShift.new value size = some shift ↔ value < size.bits ∧ value = shift := by
  unfold ImmShift.new
  split
  · next below => simp [below]
  · next above => simp [above]

theorem trailingZeros_pow {width : Nat} (below : k < width) : trailingZeros width (2 ^ k) = k := by
  have found : (List.range width).find? (2 ^ k).testBit = some k := by
    rw [List.find?_eq_some_iff_getElem]
    refine ⟨by simp, k, by simpa using below, by simp, fun j before => ?_⟩
    simp [(Nat.ne_of_lt before).symm]
  rw [trailingZeros, found, Option.getD_some]

theorem toU8_eq_some {value : BitVec 32} (small : toU8 value = some n) : value.toNat = n := by
  unfold toU8 at small
  split at small
  · next bounds =>
      cases small
      have := Word.toInt_of_nonneg bounds.1
      omega
  · cases small

theorem Imm12.new_eq_some {value : Nat} {shift12 : Bool} {imm : Imm12}
    (made : Imm12.new value shift12 = some imm) : imm.value = value ∧ imm.shift12 = shift12 := by
  unfold Imm12.new at made
  split at made
  · cases made
    exact ⟨rfl, rfl⟩
  · cases made

theorem Imm12.bits_plain {value : Nat} {imm : Imm12} (made : Imm12.new value false = some imm) :
    imm.bits .size32 = BitVec.ofNat 32 value := by
  obtain ⟨isValue, plain⟩ := Imm12.new_eq_some made
  simp [Imm12.bits, isValue, plain]

theorem Imm12.bits_shifted {value : Nat} {imm : Imm12} (whole : value % 4096 = 0)
    (made : Imm12.new (value / 4096) true = some imm) :
    imm.bits .size32 = BitVec.ofNat 32 value := by
  obtain ⟨isValue, shifted⟩ := Imm12.new_eq_some made
  have back : value / 4096 * 4096 = value := Nat.div_mul_cancel (Nat.dvd_of_mod_eq_zero whole)
  simp [Imm12.bits, isValue, shifted, back]

theorem magnitudeImm12_bits {magnitude : Nat} {imm : Imm12}
    (made : magnitudeImm12 magnitude = some imm) : imm.bits .size32 =
      BitVec.ofNat 32 magnitude := by
  unfold magnitudeImm12 at made
  split at made
  · exact Imm12.bits_plain made
  · split at made
    · next whole => exact Imm12.bits_shifted whole.1 made
    · cases made

theorem positiveImm12_bits {value : BitVec 32} {imm : Imm12}
    (made : positiveImm12 value = some imm) : imm.bits .size32 = value := by
  unfold positiveImm12 at made
  split at made
  · cases made
  · rw [magnitudeImm12_bits made, BitVec.ofNat_toNat, BitVec.setWidth_eq]

theorem ofNat_natAbs (value : BitVec 32) :
    BitVec.ofNat 32 value.toInt.natAbs = if value.toInt < 0 then -value else value := by
  rw [← BitVec.ofInt_natCast]
  split
  · next negative =>
      rw [Int.ofNat_natAbs_of_nonpos negative.le, BitVec.ofInt_neg, BitVec.ofInt_toInt]
  · next positive => rw [Int.natAbs_of_nonneg (by omega), BitVec.ofInt_toInt]

/-- A sum or a difference with an immediate. -/
theorem addSubImmediate_eval {value : BitVec 32} {alu : AluOp} {imm : Imm12}
    (made : addSubImmediate op (some value) = some (alu, imm)) (a : BitVec 32) :
    (alu = .add ∨ alu = .sub) ∧ foldBinary op a value = some (alu.eval a (imm.bits .size32)) := by
  have bits (imm : Imm12) (made : magnitudeImm12 value.toInt.natAbs = some imm) :
      imm.bits .size32 = if value.toInt < 0 then -value else value := by
    rw [magnitudeImm12_bits made, ofNat_natAbs]
  unfold addSubImmediate at made
  rw [Option.bind_some] at made
  split at made
  · next positive =>
      obtain ⟨imm', isImm, same⟩ := Option.map_eq_some_iff.mp made
      cases same
      rw [bits imm isImm, if_neg (of_decide_eq_false positive)]
      exact ⟨.inl rfl, rfl⟩
  · next negative =>
      obtain ⟨imm', isImm, same⟩ := Option.map_eq_some_iff.mp made
      cases same
      rw [bits imm isImm, if_pos (of_decide_eq_true negative)]
      exact ⟨.inl rfl, congrArg some (BitVec.sub_eq_add_neg a value)⟩
  · next positive =>
      obtain ⟨imm', isImm, same⟩ := Option.map_eq_some_iff.mp made
      cases same
      rw [bits imm isImm, if_neg (of_decide_eq_false positive)]
      exact ⟨.inr rfl, rfl⟩
  · next negative =>
      obtain ⟨imm', isImm, same⟩ := Option.map_eq_some_iff.mp made
      cases same
      rw [bits imm isImm, if_pos (of_decide_eq_true negative)]
      exact ⟨.inr rfl, congrArg some (by simp [AluOp.eval])⟩
  · cases made

/-- A logical immediate is the constant. -/
theorem immLogic_bits {value : BitVec 32} {imm : ImmLogic}
    (made : ImmLogic.new (integerBits value .size32) .size32 = some imm) :
    imm.size = .size32 ∧ IsBitmask imm.value .size32 ∧ imm.bits .size32 = value := by
  unfold ImmLogic.new at made
  split at made
  · next isImmediate =>
      cases made
      refine ⟨rfl, isLogicalImmediate_iff.mp isImmediate, ?_⟩
      show ((value.setWidth 64 &&& 0xffffffff).setWidth 32 : BitVec 32) = value
      rw [BitVec.setWidth_and, BitVec.setWidth_setWidth_of_le value (by decide), BitVec.setWidth_eq]
      exact BitVec.and_allOnes
  · cases made

/-! ## Comparisons -/

/-- The sign of a difference, corrected by the overflow, is the signed comparison. -/
theorem ofSub_lt (a b : BitVec 32) : ((Flags.ofSub a b).n != (Flags.ofSub a b).v) = a.slt b := by
  have boundsA := Word.fits a
  have boundsB := Word.fits b
  have boundsD := Word.fits (a - b)
  have congruent : (a - b).toInt % 4294967296 = (a.toInt - b.toInt) % 4294967296 := by
    rw [BitVec.toInt_sub]
    exact Int.bmod_emod ..
  unfold Fits at boundsA boundsB boundsD
  rw [Bool.eq_iff_iff]
  simp only [Flags.ofSub, BitVec.msb_eq_toInt, BitVec.slt_eq_decide, bne_iff_ne, ne_eq,
    decide_eq_true_eq]
  by_cases negA : a.toInt < 0 <;> by_cases negB : b.toInt < 0 <;>
    by_cases negD : (a - b).toInt < 0 <;> simp only [negA, negB, negD, decide_true,
      decide_false] <;>
    simp <;> omega

theorem ofSub_z (a b : BitVec 32) : (Flags.ofSub a b).z = (a == b) := by
  rw [Bool.eq_iff_iff]
  simp [Flags.ofSub, BitVec.sub_eq_iff_eq_add]

theorem comparisonCond_holds {cond : Cond} (isCond : comparisonCond op = some cond)
    (a b : BitVec 32) : foldBinary op a b = some (truth (cond.holds (.ofSub a b))) := by
  have lt := ofSub_lt a b
  have eq := ofSub_z a b
  have ge : ((Flags.ofSub a b).n == (Flags.ofSub a b).v) = !a.slt b := by
    rw [← lt, bne, Bool.not_not]
  have flip : b.sle a = !a.slt b := by
    rw [Bool.eq_iff_iff]
    simp [BitVec.sle_eq_decide, BitVec.slt_eq_decide]
  have le : a.sle b = ((a == b) || a.slt b) := by
    rw [Bool.eq_iff_iff]
    simp only [BitVec.sle_eq_decide, BitVec.slt_eq_decide, Bool.or_eq_true, decide_eq_true_eq,
      beq_iff_eq, ← BitVec.toInt_inj]
    omega
  have gt : b.slt a = (!(a == b) && !a.slt b) := by
    rw [← Bool.not_or, ← le, Bool.eq_iff_iff]
    simp [BitVec.sle_eq_decide, BitVec.slt_eq_decide]
  cases op <;> cases isCond <;>
    simp only [foldBinary, Cond.holds, eq, ge, flip, le, gt, bne, Bool.not_not]

/-- What `cset` writes. -/
theorem read_truth (b : Bool) : Value.read .size32 (if b then 1 else 0) = truth b := by
  cases b <;> rfl

/-! ## Multiples -/

theorem pow2Shift_spec {value : Nat} (power : value.isPowerOfTwo) (small : value < 2 ^ 64)
    (made : pow2Shift value .size32 = some n) : value = 2 ^ n ∧ n < 32 := by
  obtain ⟨k, rfl⟩ := power
  have below : k < 64 := (Nat.pow_lt_pow_iff_right (by decide)).mp small
  rw [pow2Shift, trailingZeros_pow below, ImmShift.new_eq_some] at made
  obtain ⟨isSmall, rfl⟩ := made
  exact ⟨rfl, isSmall⟩

def MulConstForm.amount : MulConstForm → Nat
  | .lsl shift => shift
  | .addLsl amount | .subLsl amount | .negLsl amount => amount

def MulConstForm.eval (form : MulConstForm) (a : BitVec 32) : BitVec 32 :=
  match form with
  | .lsl shift => a <<< shift
  | .addLsl amount => a + a <<< amount
  | .subLsl amount => a - a <<< amount
  | .negLsl amount => 0 - a <<< amount

/-- A form computes the product with the constant. -/
theorem foldMulConstant_eval {value : BitVec 32} {form : MulConstForm}
    (made : foldMulConstant value .size32 = some form) (a : BitVec 32) :
    form.amount < 32 ∧ a * value = form.eval a := by
  have bounds := Word.fits value
  unfold Fits at bounds
  have shifted (n : Nat) : a <<< n = a * BitVec.ofInt 32 (2 ^ n) := by
    rw [Word.shiftLeft_eq_ofInt, BitVec.ofInt_mul, BitVec.ofInt_toInt]
  have same (x : Int) (h : value.toInt = x) : value = BitVec.ofInt 32 x := by
    rw [← h, BitVec.ofInt_toInt]
  have one : BitVec.ofInt 32 1 = 1 := rfl
  unfold foldMulConstant at made
  dsimp only at made
  split at made
  · next power =>
      obtain ⟨n, isShift, rfl⟩ := Option.map_eq_some_iff.mp made
      obtain ⟨isPower, small⟩ := pow2Shift_spec power.2 (by have := value.isLt; omega) isShift
      have nonneg := Word.toInt_of_nonneg (by omega : 0 ≤ value.toInt)
      refine ⟨small, ?_⟩
      rw [MulConstForm.eval, shifted, ← same (2 ^ n) (by rw [nonneg, isPower]; push_cast; rfl)]
  · split at made
    · next power =>
        obtain ⟨n, isShift, rfl⟩ := Option.map_eq_some_iff.mp made
        obtain ⟨isPower, small⟩ := pow2Shift_spec power.2 (by have := value.isLt; omega) isShift
        have nonneg := Word.toInt_of_nonneg (by omega : 0 ≤ value.toInt)
        have whole : ((value.toNat - 1 : Nat) : Int) = 2 ^ n := by rw [isPower]; push_cast; rfl
        refine ⟨small, ?_⟩
        rw [MulConstForm.eval, shifted, same (1 + 2 ^ n) (by omega), BitVec.ofInt_add, one]
        ring
    · split at made
      · next power =>
          obtain ⟨n, isShift, rfl⟩ := Option.map_eq_some_iff.mp made
          obtain ⟨isPower, small⟩ := pow2Shift_spec power.2 (by omega) isShift
          have whole : ((value.toInt.natAbs + 1 : Nat) : Int) = 2 ^ n := by
            rw [isPower]; push_cast; rfl
          refine ⟨small, ?_⟩
          rw [MulConstForm.eval, shifted, same (1 + -2 ^ n) (by omega), BitVec.ofInt_add,
            BitVec.ofInt_neg, one]
          ring
      · split at made
        · next power =>
            obtain ⟨n, isShift, rfl⟩ := Option.map_eq_some_iff.mp made
            obtain ⟨isPower, small⟩ := pow2Shift_spec power.2 (by omega) isShift
            have whole : ((value.toInt.natAbs : Nat) : Int) = 2 ^ n := by
              rw [isPower]; push_cast; rfl
            refine ⟨small, ?_⟩
            rw [MulConstForm.eval, shifted, same (-2 ^ n) (by omega), BitVec.ofInt_neg]
            ring
        · cases made

/-! ## Divisions -/

theorem signedPowerOfTwo_spec {divisor : BitVec 32} {negative : Bool}
    (isPower : signedPowerOfTwo divisor = some (k, negative)) :
    k ≤ 31 ∧ divisor.toInt = if negative then -2 ^ k else 2 ^ k := by
  have bounds := Word.fits divisor
  unfold Fits at bounds
  unfold signedPowerOfTwo at isPower
  split at isPower
  · cases isPower
  · split at isPower
    · next power =>
        obtain ⟨j, isJ⟩ := power
        have small : 2 ^ j < 2 ^ 32 := by omega
        have below : j < 32 := (Nat.pow_lt_pow_iff_right (by decide)).mp small
        rw [isJ, trailingZeros_pow below] at isPower
        cases isPower
        have whole : ((divisor.toInt.natAbs : Nat) : Int) = 2 ^ k := by
          rw [isJ]; push_cast; rfl
        refine ⟨by omega, ?_⟩
        by_cases sign : divisor.toInt < 0
        · rw [decide_eq_true sign, if_pos rfl]
          omega
        · rw [decide_eq_false sign, if_neg Bool.false_ne_true]
          omega
    · cases isPower

theorem eval_asr {size : OperandSize} {k : Nat} (small : k < size.bits) (x : BitVec size.bits) :
    AluOp.eval .asr x (BitVec.ofNat size.bits k) = x.sshiftRight k := by
  have word : size.bits < 2 ^ size.bits := Nat.lt_two_pow_self
  rw [AluOp.eval, BitVec.toNat_ofNat, Nat.mod_eq_of_lt (small.trans word), Nat.mod_eq_of_lt small]

/-- The low half of a shifted 64-bit word. -/
theorem setWidth_sshiftRight (p : BitVec 64) (k : Nat) :
    (p.sshiftRight k).setWidth 32 = BitVec.ofInt 32 (p.toInt / 2 ^ k) := by
  have shifted : (p.sshiftRight k).toInt = p.toInt / 2 ^ k := by
    rw [BitVec.toInt_sshiftRight, Int.shiftRight_eq_div_pow]
    push_cast
    rfl
  rw [← shifted]
  apply BitVec.eq_of_toInt_eq
  rw [BitVec.toInt_setWidth, BitVec.toInt_ofInt]
  have cond := BitVec.toInt_eq_toNat_cond (p.sshiftRight k)
  generalize (p.sshiftRight k).toInt = i at *
  generalize (p.sshiftRight k).toNat = n at *
  have same : i % 4294967296 = (n : Int) % 4294967296 := by
    split at cond <;> omega
  rw [Int.bmod_eq_bmod_iff_bmod_sub_eq_zero]
  apply Int.bmod_eq_zero_of_dvd
  norm_num
  omega

section Magic

variable (a m : BitVec 32)

theorem toInt_product :
    (a.signExtend 64 * m.signExtend 64 : BitVec 64).toInt = a.toInt * m.toInt := by
  have boundsA := Word.fits a
  have boundsM := Word.fits m
  unfold Fits at boundsA boundsM
  have lower : -(2147483648 * 2147483648) ≤ a.toInt * m.toInt := by nlinarith
  have upper : a.toInt * m.toInt ≤ 2147483648 * 2147483648 := by nlinarith
  rw [BitVec.toInt_mul, BitVec.toInt_signExtend_of_le (by decide),
    BitVec.toInt_signExtend_of_le (by decide)]
  exact Int.bmod_eq_of_le (by norm_num; omega) (by norm_num; omega)

theorem fits_high : Fits (a.toInt * m.toInt / 2 ^ 32) := by
  have boundsA := Word.fits a
  have boundsM := Word.fits m
  unfold Fits at boundsA boundsM ⊢
  have lower : -(2147483648 * 2147483648) ≤ a.toInt * m.toInt := by nlinarith
  have upper : a.toInt * m.toInt ≤ 2147483648 * 2147483648 := by nlinarith
  norm_num
  omega

/-- The two shifts of the high half collapse into one. -/
theorem shift_high (k : Nat) :
    BitVec.ofInt 32 (a.toInt * m.toInt / 2 ^ (32 + k)) =
      (BitVec.ofInt 32 (a.toInt * m.toInt / 2 ^ 32)).sshiftRight k := by
  apply BitVec.eq_of_toInt_eq
  rw [Word.toInt_sar, Word.toInt_ofInt (fits_high a m)]
  have split : a.toInt * m.toInt / 2 ^ (32 + k) = a.toInt * m.toInt / 2 ^ 32 / 2 ^ k := by
    rw [Int.ediv_ediv_of_nonneg (by positivity), ← pow_add]
  rw [split, ← Word.toInt_ofInt (fits_high a m), ← Word.toInt_sar, BitVec.ofInt_toInt]

end Magic

end AnonCompiler.Mir
