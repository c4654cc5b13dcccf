import AnonCompiler.Lib.MagicDivision
import AnonCompiler.Lib.Word

/-!
# Magic numbers for signed division

`signed_magic_i32` and `SignedMagic::apply` of `taki_mir/src/div_magic.rs`.  The variables
of the loop are `u32`: a result that does not fit is a panic, and `none` here.  The loop
runs on fuel; `signedMagic_correct` says how much of it is enough.
-/

set_option autoImplicit false

namespace AnonCompiler.Mir

open AnonCompiler.Lib

/-- A result of `u32` arithmetic. -/
def checkedU32 (n : Nat) : Option Nat := if n < 2 ^ 32 then some n else none

inductive MagicCorrection where
  | none
  | addNumerator
  | subNumerator
deriving DecidableEq, Repr

structure SignedMagic where
  multiplier : BitVec 32
  shift : Nat
  correction : MagicCorrection
deriving DecidableEq, Repr

def SignedMagic.corrected (magic : SignedMagic) (numerator : BitVec 32) : BitVec 32 :=
  match magic.correction with
  | .none => BitVec.ofInt 32 (numerator.toInt * magic.multiplier.toInt / 2 ^ 32)
  | .addNumerator =>
    BitVec.ofInt 32 (numerator.toInt * magic.multiplier.toInt / 2 ^ 32) + numerator
  | .subNumerator =>
    BitVec.ofInt 32 (numerator.toInt * magic.multiplier.toInt / 2 ^ 32) - numerator

def SignedMagic.apply (magic : SignedMagic) (numerator : BitVec 32) : BitVec 32 :=
  (magic.corrected numerator).sshiftRight magic.shift +
    ((magic.corrected numerator).sshiftRight magic.shift >>> 31)

/-- The variables of the loop. -/
structure MagicState where
  power : Nat
  boundaryQuotient : Nat
  boundaryRemainder : Nat
  quotient : Nat
  remainder : Nat
deriving DecidableEq, Repr

/-- Doubling a quotient with its remainder. -/
def double (divisor quotient remainder : Nat) : Option (Nat × Nat) := do
  let quotient ← checkedU32 (quotient * 2)
  let remainder ← checkedU32 (remainder * 2)
  if divisor ≤ remainder then do
    let quotient ← checkedU32 (quotient + 1)
    some (quotient, remainder - divisor)
  else some (quotient, remainder)

/-- The condition of the `break`. -/
def MagicState.accurate (state : MagicState) (magnitude : Nat) : Bool :=
  magnitude - state.remainder < state.boundaryQuotient ||
    (state.boundaryQuotient == magnitude - state.remainder && state.boundaryRemainder != 0)

def magicLoop (boundary magnitude : Nat) : Nat → MagicState → Option MagicState
  | 0, _ => none
  | fuel + 1, state => do
      let power ← checkedU32 (state.power + 1)
      let first ← double boundary state.boundaryQuotient state.boundaryRemainder
      let second ← double magnitude state.quotient state.remainder
      if MagicState.accurate ⟨power, first.1, first.2, second.1, second.2⟩ magnitude then
        some ⟨power, first.1, first.2, second.1, second.2⟩
      else magicLoop boundary magnitude fuel ⟨power, first.1, first.2, second.1, second.2⟩

/-- The variables before the loop. -/
def magicStart (boundary magnitude : Nat) : MagicState :=
  ⟨31, 2 ^ 31 / boundary, 2 ^ 31 - 2 ^ 31 / boundary * boundary, 2 ^ 31 / magnitude,
    2 ^ 31 - 2 ^ 31 / magnitude * magnitude⟩

/-- `TWO31 + ((divisor as u32) >> 31)` -/
def magicThreshold (divisor : BitVec 32) : Nat := 2 ^ 31 + (divisor >>> 31).toNat

def magicCorrection (divisor multiplier : BitVec 32) : MagicCorrection :=
  if BitVec.slt 0 divisor ∧ ¬ BitVec.slt 0 multiplier then .addNumerator
  else if ¬ BitVec.slt 0 divisor ∧ BitVec.slt 0 multiplier then .subNumerator
  else .none

def magicMultiplier (divisor : BitVec 32) (quotient : Nat) : BitVec 32 :=
  if BitVec.slt divisor 0 then -BitVec.ofNat 32 (quotient + 1) else BitVec.ofNat 32 (quotient + 1)

/-- The outer `none` is a panic or a lack of fuel, the inner one the answer of the source. -/
def signedMagicI32 (fuel : Nat) (divisor : BitVec 32) : Option (Option SignedMagic) :=
  if divisor.toInt.natAbs ≤ 1 ∨ divisor.toInt.natAbs.isPowerOfTwo then some none
  else do
    let final ← magicLoop
      (magicThreshold divisor - 1 - magicThreshold divisor % divisor.toInt.natAbs)
      divisor.toInt.natAbs fuel
      (magicStart (magicThreshold divisor - 1 - magicThreshold divisor % divisor.toInt.natAbs)
        divisor.toInt.natAbs)
    some (some
      { multiplier := magicMultiplier divisor final.quotient
        shift := final.power - 32
        correction := magicCorrection divisor (magicMultiplier divisor final.quotient) })

/-! ## The loop -/

section Loop

/-- The variables are the quotients and remainders of a power of two. -/
def stateAt (boundary magnitude power : Nat) : MagicState :=
  ⟨power, 2 ^ power / boundary, 2 ^ power % boundary, 2 ^ power / magnitude, 2 ^ power % magnitude⟩

/-- What the multiplier exceeds the fraction by, times the magnitude. -/
def excess (magnitude power : Nat) : Nat := magnitude - 2 ^ power % magnitude

/-- The excess stays small for the largest numerator. -/
def Settled (boundary magnitude power : Nat) : Prop :=
  boundary * excess magnitude power < 2 ^ power

theorem checkedU32_some {n : Nat} (small : n < 2 ^ 32) : checkedU32 n = some n := if_pos small

theorem double_eq {divisor n : Nat} (pos : 0 < divisor) (small : divisor ≤ 2 ^ 31)
    (fits : n / divisor < 2 ^ 31) :
    double divisor (n / divisor) (n % divisor) = some (n * 2 / divisor, n * 2 % divisor) := by
  have lt := Nat.mod_lt n pos
  have split := Nat.div_add_mod n divisor
  generalize n / divisor = q at *
  generalize n % divisor = r at *
  rw [double, checkedU32_some (by omega), checkedU32_some (by omega)]
  simp only [Option.bind_eq_bind, Option.bind_some]
  by_cases carry : divisor ≤ r * 2
  · have unique : n * 2 / divisor = q * 2 + 1 ∧ n * 2 % divisor = r * 2 - divisor := by
      rw [Nat.div_mod_unique pos]
      refine ⟨?_, by omega⟩
      have whole : divisor * (q * 2 + 1) = divisor * q * 2 + divisor := by ring
      omega
    rw [if_pos carry, checkedU32_some (by omega), Option.bind_some, unique.1, unique.2]
  · have unique : n * 2 / divisor = q * 2 ∧ n * 2 % divisor = r * 2 := by
      rw [Nat.div_mod_unique pos]
      refine ⟨?_, by omega⟩
      have whole : divisor * (q * 2) = divisor * q * 2 := by ring
      omega
    rw [if_neg carry, unique.1, unique.2]

variable {boundary magnitude power : Nat}

theorem MagicState.accurate_eq_true (state : MagicState) (magnitude : Nat) :
    state.accurate magnitude ↔ magnitude - state.remainder < state.boundaryQuotient ∨
      state.boundaryQuotient = magnitude - state.remainder ∧ state.boundaryRemainder ≠ 0 := by
  simp [MagicState.accurate]

/-- The `break` is taken when the multiplier is accurate for the boundary. -/
theorem accurate_iff (pos : 0 < boundary) :
    (stateAt boundary magnitude power).accurate magnitude ↔ Settled boundary magnitude power := by
  have lt := Nat.mod_lt (2 ^ power) pos
  have split := Nat.div_add_mod (2 ^ power) boundary
  rw [MagicState.accurate_eq_true, Settled, excess]
  show magnitude - 2 ^ power % magnitude < 2 ^ power / boundary ∨
      2 ^ power / boundary = magnitude - 2 ^ power % magnitude ∧ 2 ^ power % boundary ≠ 0 ↔ _
  generalize magnitude - 2 ^ power % magnitude = delta
  generalize 2 ^ power / boundary = q at *
  generalize 2 ^ power % boundary = r at *
  constructor
  · rintro (below | ⟨rfl, rest⟩)
    · have := Nat.mul_le_mul_left boundary below
      rw [Nat.mul_succ] at this
      omega
    · omega
  · intro settled
    rcases lt_trichotomy q delta with less | rfl | more
    · have := Nat.mul_le_mul_left boundary less
      rw [Nat.mul_succ] at this
      omega
    · exact .inr ⟨rfl, by omega⟩
    · exact .inl more

theorem magicStart_eq : magicStart boundary magnitude = stateAt boundary magnitude 31 := by
  have split := Nat.div_add_mod (2 ^ 31) boundary
  have split' := Nat.div_add_mod (2 ^ 31) magnitude
  rw [magicStart, stateAt]
  congr 1
  · rw [Nat.mul_comm]
    omega
  · rw [Nat.mul_comm]
    omega

/-- A divisor that needs a magic number, with the boundary of its numerators. -/
structure NeedsMagic (boundary magnitude : Nat) : Prop where
  small : magnitude < 2 ^ 31
  noPower : ¬ magnitude.isPowerOfTwo
  large : 3 ≤ magnitude
  boundaryLarge : magnitude - 1 ≤ boundary
  boundarySmall : boundary ≤ 2 ^ 31

namespace NeedsMagic

variable (needs : NeedsMagic boundary magnitude)

include needs in
theorem remainder_pos (power : Nat) : 0 < 2 ^ power % magnitude := by
  by_contra zero
  have divides : magnitude ∣ 2 ^ power := Nat.dvd_of_mod_eq_zero (by omega)
  obtain ⟨k, -, isPower⟩ := (Nat.dvd_prime_pow Nat.prime_two).mp divides
  exact needs.noPower ⟨k, isPower⟩

include needs in
theorem excess_bounds (power : Nat) :
    0 < excess magnitude power ∧ excess magnitude power ≤ magnitude - 1 := by
  have pos := needs.remainder_pos power
  have lt := Nat.mod_lt (2 ^ power) (show 0 < magnitude by have := needs.large; omega)
  rw [excess]
  omega

include needs in
theorem settled_62 : Settled boundary magnitude 62 := by
  have small := needs.small
  have bounds := needs.excess_bounds 62
  calc boundary * excess magnitude 62 ≤ 2 ^ 31 * (2 ^ 31 - 2) :=
        Nat.mul_le_mul needs.boundarySmall (by omega)
    _ < 2 ^ 62 := by decide

include needs in
/-- While the loop goes on the quotients are below `2 ^ 31`. -/
theorem quotients_small (running : power = 31 ∨ ¬ Settled boundary magnitude power) :
    2 ^ power / boundary < 2 ^ 31 ∧ 2 ^ power / magnitude < 2 ^ 31 := by
  have large := needs.large
  have small := needs.small
  have boundaryLarge := needs.boundaryLarge
  have boundarySmall := needs.boundarySmall
  have bounds := needs.excess_bounds power
  rcases running with rfl | unsettled
  · constructor
    · exact Nat.div_lt_self (by decide) (by omega)
    · exact Nat.div_lt_self (by decide) (by omega)
  · rw [Settled, not_lt] at unsettled
    constructor
    · have : 2 ^ power / boundary ≤ excess magnitude power :=
        Nat.div_le_of_le_mul unsettled
      omega
    · have below : 2 ^ power < boundary * magnitude := by
        calc 2 ^ power ≤ boundary * excess magnitude power := unsettled
          _ < boundary * magnitude := Nat.mul_lt_mul_of_pos_left (by omega) (by omega)
      have := Nat.div_lt_of_lt_mul (Nat.mul_comm boundary magnitude ▸ below)
      omega

include needs in
theorem double_pair (running : power = 31 ∨ ¬ Settled boundary magnitude power) :
    double boundary (2 ^ power / boundary) (2 ^ power % boundary) =
        some (2 ^ (power + 1) / boundary, 2 ^ (power + 1) % boundary) ∧
      double magnitude (2 ^ power / magnitude) (2 ^ power % magnitude) =
        some (2 ^ (power + 1) / magnitude, 2 ^ (power + 1) % magnitude) := by
  have large := needs.large
  have boundaryLarge := needs.boundaryLarge
  have small := needs.quotients_small running
  rw [pow_succ]
  exact ⟨double_eq (by omega) needs.boundarySmall small.1,
    double_eq (by omega) needs.small.le small.2⟩

include needs in
/-- The loop ends at the first power that settles, without an overflow. -/
theorem magicLoop_eq {final : Nat} (settled : Settled boundary magnitude final)
    (bound : final ≤ 62) (first : ∀ q, 31 < q → q < final → ¬ Settled boundary magnitude q) :
    ∀ (fuel power : Nat), 31 ≤ power → power < final → final ≤ power + fuel →
      magicLoop boundary magnitude fuel (stateAt boundary magnitude power) =
        some (stateAt boundary magnitude final) := by
  intro fuel
  induction fuel with
  | zero => intro power _ before enough; omega
  | succ fuel ih =>
    intro power above before enough
    have running : power = 31 ∨ ¬ Settled boundary magnitude power := by
      rcases Nat.eq_or_lt_of_le above with rfl | later
      · exact .inl rfl
      · exact .inr (first power later before)
    have doubled := needs.double_pair running
    have pos : 0 < boundary := by
      have := needs.large
      have := needs.boundaryLarge
      omega
    have step : magicLoop boundary magnitude (fuel + 1) (stateAt boundary magnitude power) =
        if (stateAt boundary magnitude (power + 1)).accurate magnitude then
          some (stateAt boundary magnitude (power + 1))
        else magicLoop boundary magnitude fuel (stateAt boundary magnitude (power + 1)) := by
      rw [magicLoop]
      simp only [stateAt, doubled.1, doubled.2,
        checkedU32_some (show power + 1 < 2 ^ 32 by omega), Option.bind_eq_bind, Option.bind_some]
      rfl
    rw [step]
    rcases Nat.eq_or_lt_of_le (show power + 1 ≤ final from before) with rfl | later
    · rw [if_pos ((accurate_iff pos).mpr settled)]
    · have unsettled := first (power + 1) (by omega) later
      rw [if_neg (mt (accurate_iff pos).mp unsettled)]
      exact ih (power + 1) (by omega) later (by omega)

end NeedsMagic

end Loop

/-! ## The multiplier -/

/-- The power at which the loop ends. -/
structure FinalPower (boundary magnitude final : Nat) : Prop where
  above : 31 < final
  bound : final ≤ 62
  settled : Settled boundary magnitude final
  first : ∀ q, 31 < q → q < final → ¬ Settled boundary magnitude q

section Multiplier

variable {boundary magnitude final : Nat}

theorem NeedsMagic.finalPower (needs : NeedsMagic boundary magnitude) :
    ∃ final, FinalPower boundary magnitude final := by
  classical
  have exists_ : ∃ p, 31 < p ∧ Settled boundary magnitude p := ⟨62, by decide, needs.settled_62⟩
  refine ⟨Nat.find exists_, (Nat.find_spec exists_).1,
    Nat.find_min' exists_ ⟨by decide, needs.settled_62⟩, (Nat.find_spec exists_).2, ?_⟩
  intro q above below settled
  exact Nat.find_min exists_ below ⟨above, settled⟩

theorem multiplier_mul (pos : 0 < magnitude) (power : Nat) :
    (2 ^ power / magnitude + 1) * magnitude = 2 ^ power + excess magnitude power := by
  have split := Nat.div_add_mod (2 ^ power) magnitude
  have lt := Nat.mod_lt (2 ^ power) pos
  rw [excess, Nat.add_mul, Nat.one_mul, Nat.mul_comm]
  omega

/-- The multiplier is a `u32`. -/
theorem multiplier_small (needs : NeedsMagic boundary magnitude)
    (power : FinalPower boundary magnitude final) : 2 ^ final / magnitude + 1 < 2 ^ 32 := by
  have large := needs.large
  have small := needs.small
  have pos : 0 < magnitude := by omega
  have product := multiplier_mul pos final
  have bounds := needs.excess_bounds final
  have above := power.above
  apply Nat.lt_of_mul_lt_mul_right (a := magnitude)
  rw [product]
  rcases Nat.eq_or_lt_of_le above with rfl | later
  · have := Nat.mul_le_mul_left (2 ^ 32) large
    omega
  · obtain ⟨before, rfl⟩ : ∃ p, final = p + 1 := ⟨final - 1, by omega⟩
    have unsettled := power.first before (by omega) (Nat.lt_succ_self before)
    have boundsBefore := needs.excess_bounds before
    rw [Settled, not_lt] at unsettled
    have limit : 2 ^ before ≤ 2 ^ 31 * (magnitude - 1) :=
      unsettled.trans (Nat.mul_le_mul needs.boundarySmall boundsBefore.2)
    have whole : 2 ^ 31 * (magnitude - 1) * 2 + 2 ^ 32 = 2 ^ 32 * magnitude := by omega
    rw [pow_succ]
    omega

end Multiplier

/-! ## The sequence -/

section Sequence

variable {divisor : BitVec 32} {quotient : Nat}

/-- The multiplier with the sign of the divisor, before it is cut to 32 bits. -/
def signedMultiplier (divisor : BitVec 32) (quotient : Nat) : Int :=
  if divisor.toInt < 0 then -(quotient + 1 : Nat) else (quotient + 1 : Nat)

/-- The correction makes up for what the cut takes away. -/
theorem magic_cases (nonzero : divisor.toInt ≠ 0) (small : quotient + 1 < 2 ^ 32) :
    (magicMultiplier divisor quotient).toInt = signedMultiplier divisor quotient ∧
        magicCorrection divisor (magicMultiplier divisor quotient) = .none ∨
      (magicMultiplier divisor quotient).toInt = signedMultiplier divisor quotient - 2 ^ 32 ∧
        magicCorrection divisor (magicMultiplier divisor quotient) = .addNumerator ∨
      (magicMultiplier divisor quotient).toInt = signedMultiplier divisor quotient + 2 ^ 32 ∧
        magicCorrection divisor (magicMultiplier divisor quotient) = .subNumerator := by
  have zero : (0 : BitVec 32).toInt = 0 := rfl
  have word : (BitVec.ofNat 32 (quotient + 1)).toNat = quotient + 1 := by
    rw [BitVec.toNat_ofNat, Nat.mod_eq_of_lt small]
  have value := BitVec.toInt_eq_toNat_cond (BitVec.ofNat 32 (quotient + 1))
  have negWord : (-BitVec.ofNat 32 (quotient + 1)).toNat = 2 ^ 32 - (quotient + 1) := by
    rw [BitVec.toNat_neg, word, Nat.mod_eq_of_lt (by omega)]
  have negValue := BitVec.toInt_eq_toNat_cond (-BitVec.ofNat 32 (quotient + 1))
  simp only [magicCorrection, magicMultiplier, signedMultiplier, BitVec.slt_iff_toInt_lt, zero]
  rw [word] at value
  rw [negWord] at negValue
  by_cases negative : divisor.toInt < 0
  · have notPositive : ¬ 0 < divisor.toInt := by omega
    simp only [negative, notPositive, if_true, false_and, if_false, not_false_eq_true, true_and]
    split at negValue
    · exact .inr (.inr ⟨by omega, if_pos (by omega)⟩)
    · exact .inl ⟨by omega, if_neg (by omega)⟩
  · have positive : 0 < divisor.toInt := by omega
    simp only [negative, positive, true_and, if_false, not_true, false_and]
    split at value
    · exact .inl ⟨by omega, if_neg (by omega)⟩
    · exact .inr (.inl ⟨by omega, if_pos (by omega)⟩)

theorem corrected_eq (nonzero : divisor.toInt ≠ 0) (small : quotient + 1 < 2 ^ 32) (shift : Nat)
    (numerator : BitVec 32) :
    SignedMagic.corrected ⟨magicMultiplier divisor quotient, shift,
        magicCorrection divisor (magicMultiplier divisor quotient)⟩ numerator =
      BitVec.ofInt 32 (numerator.toInt * signedMultiplier divisor quotient / 2 ^ 32) := by
  rcases magic_cases nonzero small with ⟨value, kind⟩ | ⟨value, kind⟩ | ⟨value, kind⟩
  · simp only [SignedMagic.corrected, kind, value]
  · simp only [SignedMagic.corrected, kind, value]
    have split : numerator.toInt * (signedMultiplier divisor quotient - 2 ^ 32) =
        numerator.toInt * signedMultiplier divisor quotient + -numerator.toInt * 2 ^ 32 := by ring
    rw [split, Int.add_mul_ediv_right _ _ (by decide), BitVec.ofInt_add]
    have cancel : BitVec.ofInt 32 (-numerator.toInt) = -numerator := by
      rw [BitVec.ofInt_neg, BitVec.ofInt_toInt]
    rw [cancel, BitVec.add_assoc, BitVec.add_comm (-numerator), BitVec.add_neg_eq_sub,
      BitVec.sub_self, BitVec.add_zero]
  · simp only [SignedMagic.corrected, kind, value]
    have split : numerator.toInt * (signedMultiplier divisor quotient + 2 ^ 32) =
        numerator.toInt * signedMultiplier divisor quotient + numerator.toInt * 2 ^ 32 := by ring
    rw [split, Int.add_mul_ediv_right _ _ (by decide), BitVec.ofInt_add, BitVec.ofInt_toInt,
      BitVec.add_sub_cancel]

theorem high_fits (small : quotient + 1 < 2 ^ 32) (numerator : BitVec 32) :
    Fits (numerator.toInt * signedMultiplier divisor quotient / 2 ^ 32) := by
  have low := (Word.fits numerator).1
  have high := (Word.fits numerator).2
  have bound : |numerator.toInt * signedMultiplier divisor quotient| ≤
      2147483648 * (2 ^ 32 - 1) := by
    rw [abs_mul]
    apply mul_le_mul
    · rw [abs_le]
      omega
    · rw [signedMultiplier, abs_le]
      split <;> omega
    · exact abs_nonneg _
    · norm_num
  rw [abs_le] at bound
  generalize numerator.toInt * signedMultiplier divisor quotient = product at bound
  rw [Fits]
  omega

/-- The value of the sequence: the product divided by the power of two, rounded down, and one
more when that is negative. -/
theorem apply_toInt (nonzero : divisor.toInt ≠ 0) (small : quotient + 1 < 2 ^ 32) {power : Nat}
    (above : 31 < power) (numerator : BitVec 32) {value : Int}
    (divided : numerator.toInt * signedMultiplier divisor quotient / 2 ^ power = value) :
    (SignedMagic.apply ⟨magicMultiplier divisor quotient, power - 32,
        magicCorrection divisor (magicMultiplier divisor quotient)⟩ numerator).toInt =
      if value < 0 then value + 1 else value := by
  have shifted : ((SignedMagic.corrected ⟨magicMultiplier divisor quotient, power - 32,
      magicCorrection divisor (magicMultiplier divisor quotient)⟩ numerator).sshiftRight
        (power - 32)).toInt = value := by
    rw [Word.toInt_sar, corrected_eq nonzero small, Word.toInt_ofInt (high_fits small numerator),
      Int.ediv_ediv_of_nonneg (by positivity), ← divided, ← pow_add]
    congr 2
    omega
  have range := Word.fits ((SignedMagic.corrected ⟨magicMultiplier divisor quotient, power - 32,
      magicCorrection divisor (magicMultiplier divisor quotient)⟩ numerator).sshiftRight
        (power - 32))
  rw [shifted] at range
  have bit := Word.toInt_shr31 ((SignedMagic.corrected ⟨magicMultiplier divisor quotient,
      power - 32, magicCorrection divisor (magicMultiplier divisor quotient)⟩
        numerator).sshiftRight (power - 32))
  rw [shifted] at bit
  rw [SignedMagic.apply, Word.toInt_add, shifted, bit]
  · split <;> omega
  · rw [shifted, bit]
    obtain ⟨low, high⟩ := range
    constructor <;> split <;> omega

end Sequence

/-! ## The quotient -/

section Correct

variable {divisor : BitVec 32} {final : Nat}

/-- The boundary that the source computes. -/
def magicBoundary (divisor : BitVec 32) : Nat :=
  Magic.boundary (magicThreshold divisor) divisor.toInt.natAbs

theorem magicThreshold_eq (divisor : BitVec 32) :
    magicThreshold divisor = if divisor.toInt < 0 then 2 ^ 31 + 1 else 2 ^ 31 := by
  have bit := Word.toInt_shr31 divisor
  have small := Word.toNat_shr31_le divisor
  have value := BitVec.toInt_eq_toNat_cond (divisor >>> 31)
  rw [magicThreshold]
  split at bit <;> split at value <;> split <;> omega

variable (large : ¬ (divisor.toInt.natAbs ≤ 1 ∨ divisor.toInt.natAbs.isPowerOfTwo))

include large in
theorem magnitude_bounds : 3 ≤ divisor.toInt.natAbs ∧ divisor.toInt.natAbs < 2 ^ 31 := by
  rw [not_or] at large
  obtain ⟨low, high⟩ := Word.fits divisor
  have notTwo : divisor.toInt.natAbs ≠ 2 := fun two => large.2 ⟨1, two⟩
  have notMin : divisor.toInt.natAbs ≠ 2 ^ 31 := fun top => large.2 ⟨31, top⟩
  omega

include large in
theorem needsMagic : NeedsMagic (magicBoundary divisor) divisor.toInt.natAbs := by
  obtain ⟨atLeast, below⟩ := magnitude_bounds large
  have threshold := magicThreshold_eq divisor
  have le : divisor.toInt.natAbs ≤ magicThreshold divisor := by split at threshold <;> omega
  refine ⟨below, fun isPower => large (.inr isPower), atLeast, Magic.le_boundary (by omega) le, ?_⟩
  rw [magicBoundary, Magic.boundary]
  split at threshold <;> omega

include large in
/-- When the least numerator has the remainder `d - 1`, the loop ends at once, with the
excess two. -/
theorem room_at_threshold (positive : 0 < divisor.toInt)
    (power : FinalPower (magicBoundary divisor) divisor.toInt.natAbs final)
    (last : 2 ^ 31 % divisor.toInt.natAbs = divisor.toInt.natAbs - 1) :
    2 ^ 31 * excess divisor.toInt.natAbs final ≤ 2 ^ final := by
  obtain ⟨atLeast, below⟩ := magnitude_bounds large
  have threshold : magicThreshold divisor = 2 ^ 31 := by
    rw [magicThreshold_eq, if_neg (by omega)]
  have remainder : 2 ^ 32 % divisor.toInt.natAbs = divisor.toInt.natAbs - 2 := by
    have twice : 2 ^ 32 = 2 ^ 31 + 2 ^ 31 := by norm_num
    rw [twice, Nat.add_mod, last, Nat.mod_eq_sub_mod (by omega), Nat.mod_eq_of_lt (by omega)]
    omega
  have two : excess divisor.toInt.natAbs 32 = 2 := by
    rw [excess, remainder]
    omega
  have settled : Settled (magicBoundary divisor) divisor.toInt.natAbs 32 := by
    rw [Settled, two, magicBoundary, Magic.boundary, threshold, last]
    omega
  have atOnce : final = 32 := by
    by_contra later
    exact power.first 32 (by omega) (by have := power.above; omega) settled
  rw [atOnce, two]
  norm_num

include large in
/-- The room for the error, with the exception that `room_at_threshold` treats. -/
theorem numerator_room (power : FinalPower (magicBoundary divisor) divisor.toInt.natAbs final)
    {n : Nat} (below : n < magicThreshold divisor) :
    n * excess divisor.toInt.natAbs final <
      (divisor.toInt.natAbs - n % divisor.toInt.natAbs) * 2 ^ final := by
  obtain ⟨atLeast, small⟩ := magnitude_bounds large
  have threshold := magicThreshold_eq divisor
  have le : divisor.toInt.natAbs ≤ magicThreshold divisor := by split at threshold <;> omega
  exact Magic.room_of_boundary (by omega) le power.settled (.inl below)

include large in
theorem numerator_room_le (power : FinalPower (magicBoundary divisor) divisor.toInt.natAbs final)
    (positive : 0 < divisor.toInt) {n : Nat} (below : n ≤ 2 ^ 31) :
    n * excess divisor.toInt.natAbs final ≤
      (divisor.toInt.natAbs - n % divisor.toInt.natAbs) * 2 ^ final := by
  obtain ⟨atLeast, small⟩ := magnitude_bounds large
  have threshold : magicThreshold divisor = 2 ^ 31 := by
    rw [magicThreshold_eq, if_neg (by omega)]
  rcases Nat.eq_or_lt_of_le below with rfl | inside
  · by_cases last : 2 ^ 31 % divisor.toInt.natAbs = divisor.toInt.natAbs - 1
    · have one : divisor.toInt.natAbs - 2 ^ 31 % divisor.toInt.natAbs = 1 := by omega
      rw [one, Nat.one_mul]
      exact room_at_threshold large positive power last
    · refine (Magic.room_of_boundary (by omega) (by omega) power.settled
        (.inr ⟨threshold.symm, ?_⟩)).le
      rwa [threshold]
  · exact (numerator_room large power (threshold.symm ▸ inside)).le

theorem signed_product (n d : Int) (M : Nat) :
    n * (if d < 0 then -(M : Int) else M) =
      if n * d < 0 then -((M * n.natAbs : Nat) : Int)
      else if d = 0 then n * M else ((M * n.natAbs : Nat) : Int) := by
  push_cast
  rcases lt_trichotomy d 0 with dNeg | rfl | dPos
  · rcases lt_or_ge 0 n with nPos | nNonpos
    · rw [if_pos dNeg, if_pos (mul_neg_of_pos_of_neg nPos dNeg), abs_of_pos nPos]
      ring
    · have product := mul_nonneg_of_nonpos_of_nonpos nNonpos dNeg.le
      rw [if_pos dNeg, if_neg product.not_gt, if_neg dNeg.ne, abs_of_nonpos nNonpos]
      ring
  · simp
  · rcases lt_or_ge n 0 with nNeg | nNonneg
    · rw [if_neg dPos.not_gt, if_pos (mul_neg_of_neg_of_pos nNeg dPos), abs_of_neg nNeg]
      ring
    · have product := mul_nonneg nNonneg dPos.le
      rw [if_neg dPos.not_gt, if_neg product.not_gt, if_neg dPos.ne', abs_of_nonneg nNonneg]
      ring

theorem tdiv_eq_natAbs (n d : Int) :
    n.tdiv d = if n * d < 0 then -((n.natAbs / d.natAbs : Nat) : Int)
      else ((n.natAbs / d.natAbs : Nat) : Int) := by
  have magnitude : (n.tdiv d).natAbs = n.natAbs / d.natAbs := Int.natAbs_tdiv n d
  have sign : 0 ≤ n.tdiv d * (n * d) := by
    rcases le_total 0 n with nNonneg | nNonpos <;> rcases le_total 0 d with dNonneg | dNonpos
    · exact mul_nonneg (Int.tdiv_nonneg nNonneg dNonneg) (mul_nonneg nNonneg dNonneg)
    · exact mul_nonneg_of_nonpos_of_nonpos (Int.tdiv_nonpos_of_nonneg_of_nonpos nNonneg dNonpos)
        (mul_nonpos_of_nonneg_of_nonpos nNonneg dNonpos)
    · have negated : (-n).tdiv d = -n.tdiv d := Int.neg_tdiv n d
      have nonneg := Int.tdiv_nonneg (Int.neg_nonneg_of_nonpos nNonpos) dNonneg
      exact mul_nonneg_of_nonpos_of_nonpos (by omega)
        (mul_nonpos_of_nonpos_of_nonneg nNonpos dNonneg)
    · exact mul_nonneg (Int.tdiv_nonneg_of_nonpos_of_nonpos nNonpos dNonpos)
        (mul_nonneg_of_nonpos_of_nonpos nNonpos dNonpos)
  split
  · next negative =>
      have := nonpos_of_mul_nonneg_left sign negative
      omega
  · next nonneg =>
      rcases (not_lt.mp nonneg).eq_or_lt with zero | positive
      · rcases mul_eq_zero.mp zero.symm with rfl | rfl <;> simp
      · have := nonneg_of_mul_nonneg_left sign positive
        omega

include large in
/-- The sequence with the final power gives the truncated quotient. -/
theorem apply_eq_sdiv (power : FinalPower (magicBoundary divisor) divisor.toInt.natAbs final)
    (numerator : BitVec 32) :
    SignedMagic.apply
      ⟨magicMultiplier divisor (2 ^ final / divisor.toInt.natAbs), final - 32,
        magicCorrection divisor (magicMultiplier divisor (2 ^ final / divisor.toInt.natAbs))⟩
      numerator = numerator.sdiv divisor := by
  obtain ⟨atLeast, small⟩ := magnitude_bounds large
  obtain ⟨low, high⟩ := Word.fits numerator
  have pos : 0 < divisor.toInt.natAbs := by omega
  have nonzero : divisor.toInt ≠ 0 := by omega
  have multiple := multiplier_mul pos final
  have excessPos := ((needsMagic large).excess_bounds final).1
  have threshold := magicThreshold_eq divisor
  have product := signed_product numerator.toInt divisor.toInt
    (2 ^ final / divisor.toInt.natAbs + 1)
  have castPower : (2 : Int) ^ final = ((2 ^ final : Nat) : Int) := by push_cast; rfl
  have word := multiplier_small (needsMagic large) power
  have ratio : (0 : Int) ≤ ((numerator.toInt.natAbs / divisor.toInt.natAbs : Nat) : Int) :=
    Int.natCast_nonneg _
  apply BitVec.eq_of_toInt_eq
  rw [BitVec.toInt_sdiv_of_ne_or_ne, tdiv_eq_natAbs]
  · by_cases opposite : numerator.toInt * divisor.toInt < 0
    · -- The product is negative: it is rounded down, and one is added.
      have positive : 0 < numerator.toInt.natAbs := by
        rw [Int.natAbs_pos]
        rintro zero
        simp [zero] at opposite
      have room : numerator.toInt.natAbs * excess divisor.toInt.natAbs final ≤
          (divisor.toInt.natAbs - numerator.toInt.natAbs % divisor.toInt.natAbs) * 2 ^ final := by
        by_cases dNeg : divisor.toInt < 0
        · have nPos : 0 < numerator.toInt := pos_of_mul_neg_left opposite dNeg.le
          rw [if_pos dNeg] at threshold
          exact (numerator_room large power (by omega)).le
        · exact numerator_room_le large power (by omega) (by omega)
      have quotient := Magic.neg_mul_div_eq multiple pos (Nat.two_pow_pos final) positive excessPos
        room
      rw [if_pos opposite, ← castPower] at *
      rw [apply_toInt nonzero word power.above numerator
        (by rw [signedMultiplier, product, quotient])]
      rw [if_pos (by omega)]
      omega
    · have room : numerator.toInt.natAbs * excess divisor.toInt.natAbs final <
          (divisor.toInt.natAbs - numerator.toInt.natAbs % divisor.toInt.natAbs) * 2 ^ final := by
        apply numerator_room large power
        by_cases dNeg : divisor.toInt < 0
        · rw [if_pos dNeg] at threshold
          omega
        · have nNonneg : 0 ≤ numerator.toInt := by
            by_contra nNeg
            exact opposite (mul_neg_of_neg_of_pos (not_le.mp nNeg) (by omega))
          rw [if_neg dNeg] at threshold
          omega
      have quotient := Magic.mul_div_eq multiple pos room
      rw [if_neg opposite] at *
      rw [if_neg nonzero] at product
      rw [apply_toInt nonzero word power.above numerator
        (by rw [signedMultiplier, product, castPower, ← Int.natCast_ediv, quotient])]
      rw [if_neg (by omega)]
  · right
    intro minusOne
    rw [minusOne] at atLeast
    exact absurd atLeast (by decide)

/-- A magic number exists for every divisor that needs one, the loop finds it without an
overflow, and its sequence is the division. -/
theorem signedMagic_correct (divisor : BitVec 32) (atLeast : 2 ≤ divisor.toInt.natAbs)
    (noPower : ¬ divisor.toInt.natAbs.isPowerOfTwo) :
    ∃ magic, magic.shift ≤ 31 ∧
      (∀ fuel, 31 ≤ fuel → signedMagicI32 fuel divisor = some (some magic)) ∧
      ∀ numerator, magic.apply numerator = numerator.sdiv divisor := by
  have large : ¬ (divisor.toInt.natAbs ≤ 1 ∨ divisor.toInt.natAbs.isPowerOfTwo) := by
    rw [not_or]
    exact ⟨by omega, noPower⟩
  obtain ⟨final, power⟩ := (needsMagic large).finalPower
  have bound := power.bound
  refine ⟨_, show final - 32 ≤ 31 by omega, ?_, apply_eq_sdiv large power⟩
  intro fuel enough
  have loop := (needsMagic large).magicLoop_eq power.settled bound power.first fuel 31 le_rfl
    power.above (by omega)
  rw [← magicStart_eq, magicBoundary, Magic.boundary] at loop
  rw [signedMagicI32, if_neg large, loop]
  rfl

/-- Division by seven, with the correction. -/
theorem signedMagic_seven :
    ∃ magic, magic.shift ≤ 31 ∧
      (∀ fuel, 31 ≤ fuel → signedMagicI32 fuel 7 = some (some magic)) ∧
      ∀ numerator, magic.apply numerator = numerator.sdiv 7 :=
  signedMagic_correct 7 (by decide) (by decide)

end Correct

end AnonCompiler.Mir
