import AnonCompiler.Lib.Word

/-!
# Division by constants

A truncating division by a power of two is a shift, once the sign has been added to round
towards zero.  A remainder is what the quotient leaves.
-/

set_option autoImplicit false

namespace AnonCompiler.Lib.Word

section AnyWidth

variable {w : Nat} {a b : BitVec w}

theorem add_eq_ofInt : a + b = BitVec.ofInt w (a.toInt + b.toInt) := by
  rw [BitVec.ofInt_add, BitVec.ofInt_toInt, BitVec.ofInt_toInt]

theorem sub_eq_ofInt : a - b = BitVec.ofInt w (a.toInt - b.toInt) := by
  apply BitVec.eq_of_toInt_eq
  rw [BitVec.toInt_sub, BitVec.toInt_ofInt]

/-- A word is the product with the constant whose integer is given. -/
theorem mul_eq_ofInt : a * b = BitVec.ofInt w (a.toInt * b.toInt) := by
  rw [BitVec.ofInt_mul, BitVec.ofInt_toInt, BitVec.ofInt_toInt]

theorem sdiv_eq_ofInt : a.sdiv b = BitVec.ofInt w (a.toInt.tdiv b.toInt) := by
  apply BitVec.eq_of_toInt_eq
  rw [BitVec.toInt_sdiv, BitVec.toInt_ofInt]

theorem srem_eq_ofInt : a.srem b = BitVec.ofInt w (a.toInt.tmod b.toInt) := by
  rw [← BitVec.toInt_srem, BitVec.ofInt_toInt]

theorem sub_ofInt_mul (x y : Int) :
    a - BitVec.ofInt w x * BitVec.ofInt w y = BitVec.ofInt w (a.toInt - x * y) := by
  rw [Int.sub_eq_add_neg, BitVec.ofInt_add, BitVec.ofInt_neg, BitVec.ofInt_mul, BitVec.ofInt_toInt,
    BitVec.sub_eq_add_neg]

/-- The remainder is what the quotient leaves. -/
theorem srem_eq (a b : BitVec w) : a.srem b = a - a.sdiv b * b := by
  have whole := sub_ofInt_mul (a := a) (a.toInt.tdiv b.toInt) b.toInt
  rw [BitVec.ofInt_toInt, ← sdiv_eq_ofInt] at whole
  rw [whole, srem_eq_ofInt, Int.tmod_def, Int.mul_comm b.toInt]

end AnyWidth

variable {a b : BitVec 32}

theorem shiftLeft_eq_ofInt (a : BitVec 32) (k : Nat) : a <<< k =
    BitVec.ofInt 32 (a.toInt * 2 ^ k) := by
  have power : BitVec.twoPow 32 k = BitVec.ofInt 32 (2 ^ k) := by
    have cast : ((2 ^ k : Nat) : Int) = 2 ^ k := by push_cast; rfl
    rw [← cast, BitVec.ofInt_natCast]
    apply BitVec.eq_of_toNat_eq
    rw [BitVec.toNat_twoPow, BitVec.toNat_ofNat]
  rw [BitVec.shiftLeft_eq_mul_twoPow, BitVec.ofInt_mul, BitVec.ofInt_toInt, power]

/-- The bias of a power of two: its predecessor for negative numbers. -/
theorem toNat_bias (a : BitVec 32) {k : Nat} (small : k ≤ 32) :
    ((a.sshiftRight 31) >>> (32 - k)).toNat = if a.toInt < 0 then 2 ^ k - 1 else 0 := by
  have sign : a.sshiftRight 31 = if a.toInt < 0 then BitVec.allOnes 32 else 0 := by
    apply BitVec.eq_of_toInt_eq
    have bounds := fits a
    rw [toInt_sar]
    unfold Fits at bounds
    split
    · rw [BitVec.toInt_allOnes]
      norm_num
      omega
    · rw [show ((0 : BitVec 32).toInt) = 0 from rfl]
      omega
  rw [sign]
  split
  · rw [BitVec.toNat_ushiftRight, BitVec.toNat_allOnes, Nat.shiftRight_eq_div_pow]
    have split : 2 ^ 32 = 2 ^ k * 2 ^ (32 - k) := by
      rw [← Nat.pow_add, Nat.add_sub_cancel' small]
    have pos : 0 < 2 ^ (32 - k) := Nat.two_pow_pos _
    have pos' : 0 < 2 ^ k := Nat.two_pow_pos _
    rw [split]
    apply Nat.div_eq_of_lt_le
    · rw [Nat.sub_mul, Nat.one_mul]
      omega
    · rw [Nat.sub_add_cancel pos']
      exact Nat.sub_lt (Nat.mul_pos pos' pos) Nat.one_pos
  · simp

theorem tdiv_eq_add_div {x d : Int} (pos : 0 < d) :
    x.tdiv d = (x + if x < 0 then d - 1 else 0) / d := by
  split
  · next negative =>
      have flip : x.tdiv d = -((-x) / d) := by
        rw [← Int.tdiv_eq_ediv_of_nonneg (by omega), Int.neg_tdiv, Int.neg_neg]
      have rounding := Int.mul_ediv_add_emod (-x) d
      have lower := Int.emod_nonneg (-x) (by omega : d ≠ 0)
      have upper := Int.emod_lt_of_pos (-x) pos
      rw [flip, eq_comm]
      apply Int.ediv_eq_iff_of_pos pos |>.mpr
      constructor
      · rw [Int.neg_mul, Int.mul_comm]
        omega
      · rw [Int.neg_mul, Int.mul_comm]
        omega
  · rw [Int.tdiv_eq_ediv_of_nonneg (by omega), Int.add_zero]

/-- The quotient by a power of two, as the shifts make it. -/
theorem toInt_shiftQuotient (a : BitVec 32) {k : Nat} (pos : 1 ≤ k) (small : k ≤ 31) :
    ((a + (a.sshiftRight 31) >>> (32 - k)).sshiftRight k).toInt = a.toInt.tdiv (2 ^ k) := by
  have bias := toNat_bias a (show k ≤ 32 by omega)
  have atMost : 2 ^ k ≤ 2 ^ 31 := Nat.pow_le_pow_right (by decide) small
  have atLeast : 0 < 2 ^ k := Nat.two_pow_pos k
  have cast : ((2 ^ k : Nat) : Int) = 2 ^ k := by push_cast; rfl
  have bounds := fits a
  have biasInt : ((a.sshiftRight 31) >>> (32 - k)).toInt =
      if a.toInt < 0 then ((2 ^ k : Nat) : Int) - 1 else 0 := by
    rw [BitVec.toInt_eq_toNat_of_lt (by rw [bias]; split <;> omega), bias]
    split <;> omega
  have sum : (a + (a.sshiftRight 31) >>> (32 - k)).toInt =
      a.toInt + if a.toInt < 0 then ((2 ^ k : Nat) : Int) - 1 else 0 := by
    unfold Fits at bounds
    rw [toInt_add, biasInt]
    rw [biasInt]
    unfold Fits
    split <;> omega
  rw [toInt_sar, sum, cast, tdiv_eq_add_div (by rw [← cast]; omega)]

section PowerOfTwo

variable {k : Nat} (pos : 1 ≤ k) (small : k ≤ 31)

include pos small

theorem shiftQuotient_eq (a : BitVec 32) :
    (a + (a.sshiftRight 31) >>> (32 - k)).sshiftRight k =
      BitVec.ofInt 32 (a.toInt.tdiv (2 ^ k)) := by
  rw [← toInt_shiftQuotient a pos small, BitVec.ofInt_toInt]

theorem sdiv_power (isPower : b.toInt = 2 ^ k) (a : BitVec 32) :
    a.sdiv b = (a + (a.sshiftRight 31) >>> (32 - k)).sshiftRight k := by
  rw [shiftQuotient_eq pos small, sdiv_eq_ofInt, isPower]

theorem sdiv_negPower (isPower : b.toInt = -2 ^ k) (a : BitVec 32) :
    a.sdiv b = -(a + (a.sshiftRight 31) >>> (32 - k)).sshiftRight k := by
  rw [shiftQuotient_eq pos small, sdiv_eq_ofInt, isPower, Int.tdiv_neg, BitVec.ofInt_neg]

theorem srem_power (isPower : b.toInt.natAbs = 2 ^ k) (a : BitVec 32) :
    a.srem b = a - (a + (a.sshiftRight 31) >>> (32 - k)).sshiftRight k <<< k := by
  have cast : ((2 ^ k : Nat) : Int) = 2 ^ k := by push_cast; rfl
  have sign : a.toInt.tmod b.toInt = a.toInt.tmod (2 ^ k) := by
    rcases Int.natAbs_eq b.toInt with same | same
    · rw [same, isPower, cast]
    · rw [same, isPower, cast, Int.tmod_neg]
  have left : a.toInt - 2 ^ k * a.toInt.tdiv (2 ^ k) =
    a.toInt + -(a.toInt.tdiv (2 ^ k) * 2 ^ k) := by
    rw [Int.mul_comm, Int.sub_eq_add_neg]
  rw [srem_eq_ofInt, sign, shiftLeft_eq_ofInt, toInt_shiftQuotient a pos small, Int.tmod_def, left,
    BitVec.ofInt_add, BitVec.ofInt_neg, BitVec.ofInt_toInt, BitVec.sub_eq_add_neg]

end PowerOfTwo

end AnonCompiler.Lib.Word
