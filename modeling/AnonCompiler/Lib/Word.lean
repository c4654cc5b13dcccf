import Mathlib.Tactic

/-!
# Signed 32-bit words

Words are bit vectors read as two's-complement integers.  The lemmas say when a
wrapping operation is the operation on integers, and how shifts, masks and the
truncating remainder act on the integer a word stands for.
-/

set_option autoImplicit false

namespace AnonCompiler.Lib

/-- The integers a 32-bit word can stand for. -/
def Fits (x : Int) : Prop := -2147483648 ≤ x ∧ x < 2147483648

instance (x : Int) : Decidable (Fits x) := inferInstanceAs (Decidable (_ ∧ _))

namespace Word

variable {a b : BitVec 32}

variable {x : Int}

theorem fits (a : BitVec 32) : Fits a.toInt := by
  have lower := a.le_toInt
  have upper := @BitVec.toInt_lt 32 a
  norm_num at lower upper
  exact ⟨lower, upper⟩

/-- The integers that a word of any width stands for. -/
theorem exists_toInt_eq {w : Nat} (pos : 0 < w) :
    (∃ a : BitVec w, a.toInt = x) ↔ -2 ^ (w - 1) ≤ x ∧ x < 2 ^ (w - 1) := by
  constructor
  · rintro ⟨a, rfl⟩
    exact ⟨a.le_toInt, BitVec.toInt_lt⟩
  · rintro ⟨lower, upper⟩
    exact ⟨BitVec.ofInt w x, BitVec.toInt_ofInt_eq_self pos lower upper⟩

theorem bmod_eq (h : Fits x) : x.bmod (2 ^ 32) = x := by
  obtain ⟨lower, upper⟩ := h
  exact Int.bmod_eq_of_le (by norm_num; omega) (by norm_num; omega)

theorem toInt_ofInt (h : Fits x) : (BitVec.ofInt 32 x).toInt = x := by
  rw [BitVec.toInt_ofInt, bmod_eq h]

theorem toInt_add (h : Fits (a.toInt + b.toInt)) : (a + b).toInt = a.toInt + b.toInt := by
  rw [BitVec.toInt_add, bmod_eq h]

theorem toInt_sub (h : Fits (a.toInt - b.toInt)) : (a - b).toInt = a.toInt - b.toInt := by
  rw [BitVec.toInt_sub, bmod_eq h]

theorem toInt_mul (h : Fits (a.toInt * b.toInt)) : (a * b).toInt = a.toInt * b.toInt := by
  rw [BitVec.toInt_mul, bmod_eq h]

/-- The arithmetic shift divides, rounding down. -/
theorem toInt_sar (a : BitVec 32) (k : Nat) : (a.sshiftRight k).toInt = a.toInt / 2 ^ k := by
  rw [BitVec.toInt_sshiftRight, Int.shiftRight_eq_div_pow]
  norm_num

theorem toInt_of_nonneg (h : 0 ≤ a.toInt) : a.toInt = a.toNat := by
  have := a.toInt_eq_toNat_cond
  split at this
  · exact this
  · have := a.isLt
    omega

/-- The sign bit, shifted down. -/
theorem toInt_shr31 (a : BitVec 32) : (a >>> 31).toInt = if a.toInt < 0 then 1 else 0 := by
  have lt := a.isLt
  have value : (a >>> 31).toNat = a.toNat / 2147483648 := by
    rw [BitVec.toNat_ushiftRight, Nat.shiftRight_eq_div_pow]
  have cond := (a >>> 31).toInt_eq_toNat_cond
  rw [value] at cond
  have own := a.toInt_eq_toNat_cond
  split at cond
  · split at own <;> split <;> omega
  · omega

theorem toInt_srem (a b : BitVec 32) : (a.srem b).toInt = a.toInt.tmod b.toInt :=
  BitVec.toInt_srem a b

/-- Congruent integers of the same sign have the same truncating remainder. -/
theorem tmod_congr {y p : Int} (congruent : p ∣ x - y) (sign : 0 ≤ x ∧ 0 ≤ y ∨ x ≤ 0 ∧ y ≤ 0) :
    x.tmod p = y.tmod p := by
  rcases sign with ⟨hx, hy⟩ | ⟨hx, hy⟩
  · rw [Int.tmod_eq_emod_of_nonneg hx, Int.tmod_eq_emod_of_nonneg hy]
    exact Int.emod_eq_emod_iff_emod_sub_eq_zero.mpr (Int.emod_eq_zero_of_dvd congruent)
  · have flipped : (-x).tmod p = (-y).tmod p := by
      rw [Int.tmod_eq_emod_of_nonneg (by omega), Int.tmod_eq_emod_of_nonneg (by omega)]
      refine Int.emod_eq_emod_iff_emod_sub_eq_zero.mpr (Int.emod_eq_zero_of_dvd ?_)
      rw [show -x - -y = -(x - y) by ring]
      exact Int.dvd_neg.mpr congruent
    rw [Int.neg_tmod, Int.neg_tmod] at flipped
    omega

theorem dvd_sub_tmod (x p : Int) : p ∣ x - x.tmod p := by
  refine ⟨x.tdiv p, ?_⟩
  have := Int.tmod_add_mul_tdiv x p
  omega

/-- The remainder has the sign of the dividend. -/
theorem tmod_sign {x p : Int} : (0 ≤ x → 0 ≤ x.tmod p) ∧ (x ≤ 0 → x.tmod p ≤ 0) := by
  refine ⟨fun h => Int.tmod_nonneg p h, fun h => ?_⟩
  have := Int.tmod_nonneg p (show (0 : Int) ≤ -x by omega)
  rw [Int.neg_tmod] at this
  omega

/-! ## Words that are not negative -/

theorem nonneg_iff : 0 ≤ a.toInt ↔ a.toNat < 2147483648 := by
  rw [BitVec.toInt_eq_toNat_cond]
  have := a.isLt
  split <;> omega

section

variable (h : 0 ≤ a.toInt)
include h

theorem nonneg_of_le (le : b.toNat ≤ a.toNat) : 0 ≤ b.toInt :=
  nonneg_iff.mpr (Nat.lt_of_le_of_lt le (nonneg_iff.mp h))

theorem nonneg_shr (k : Nat) : 0 ≤ (a >>> k).toInt := by
  refine nonneg_of_le h ?_
  rw [BitVec.toNat_ushiftRight, Nat.shiftRight_eq_div_pow]
  exact Nat.div_le_self ..

theorem nonneg_and (b : BitVec 32) : 0 ≤ (a &&& b).toInt := by
  refine nonneg_of_le h ?_
  rw [BitVec.toNat_and]
  exact Nat.and_le_left

theorem nonneg_sar (k : Nat) : 0 ≤ (a.sshiftRight k).toInt := by
  rw [toInt_sar]
  exact Int.ediv_nonneg h (by positivity)

theorem nonneg_srem (b : BitVec 32) : 0 ≤ (a.srem b).toInt := by
  rw [toInt_srem]
  exact Int.tmod_nonneg _ h

theorem nonneg_sdiv (pos : 0 < b.toInt) : 0 ≤ (a.sdiv b).toInt := by
  have lower : 0 ≤ a.toInt.tdiv b.toInt := Int.tdiv_nonneg h (Int.le_of_lt pos)
  have upper : a.toInt.tdiv b.toInt ≤ a.toInt := Int.tdiv_le_self _ h
  rw [BitVec.toInt_sdiv, bmod_eq ⟨by omega, Int.lt_of_le_of_lt upper (fits a).2⟩]
  exact lower

end

/-- A shift by 31 leaves one bit. -/
theorem toNat_shr31_le (a : BitVec 32) : (a >>> 31).toNat ≤ 1 := by
  rw [BitVec.toNat_ushiftRight, Nat.shiftRight_eq_div_pow]
  have := a.isLt
  omega

/-- Adding a bit can only wrap to the least word. -/
theorem nonneg_add_bit (h : 0 ≤ a.toInt) (bit : b.toNat ≤ 1) :
    0 ≤ (a + b).toInt ∨ a + b = BitVec.intMin 32 := by
  rw [nonneg_iff] at h
  rw [nonneg_iff, BitVec.toNat_add]
  by_cases wraps : (a.toNat + b.toNat) % 2 ^ 32 < 2147483648
  · exact .inl wraps
  · refine .inr (BitVec.eq_of_toNat_eq ?_)
    rw [BitVec.toNat_add, BitVec.toNat_intMin]
    omega

/-- A remainder of a non-negative product is a non-negative word. -/
theorem nonneg_ofInt_tmod (h : 0 ≤ x) {p : BitVec 32} (nonzero : p ≠ 0) :
    0 ≤ (BitVec.ofInt 32 (x.tmod p.toInt)).toInt := by
  have lower := Int.tmod_nonneg p.toInt h
  have small : x.tmod p.toInt < |p.toInt| := by
    have : p.toInt ≠ 0 := fun same => nonzero (BitVec.toInt_inj.mp (by simpa using same))
    rw [Int.tmod_eq_emod_of_nonneg h]
    exact Int.emod_lt_abs _ this
  have := fits p
  have upper : |p.toInt| ≤ 2147483648 := abs_le.mpr ⟨this.1, Int.le_of_lt this.2⟩
  rw [toInt_ofInt ⟨by omega, by omega⟩]
  exact lower

end Word

end AnonCompiler.Lib
