import AnonCompiler.Lib.PowerDivision
import AnonCompiler.Opt.IntRange

/-!
# Soundness of the transfer function

The folded value of two contained operands is contained in the range of the operator,
unless the operator is a logical right shift whose amount may be zero modulo 32.
-/

set_option autoImplicit false

namespace AnonCompiler.Opt

open AnonCompiler.Ir AnonCompiler.Lib IntRange

/-! ## Monotonicity -/

theorem mul_between {low high x : Int} (c : Int) (above : low ≤ x) (below : x ≤ high) :
    min (low * c) (high * c) ≤ x * c ∧ x * c ≤ max (low * c) (high * c) := by
  rcases le_total 0 c with nonneg | nonpos
  · have first := Int.mul_le_mul_of_nonneg_right above nonneg
    have second := Int.mul_le_mul_of_nonneg_right below nonneg
    omega
  · have first := Int.mul_le_mul_of_nonpos_right above nonpos
    have second := Int.mul_le_mul_of_nonpos_right below nonpos
    omega

theorem tdiv_between {low high x : Int} (c : Int) (above : low ≤ x) (below : x ≤ high) :
    min (low.tdiv c) (high.tdiv c) ≤ x.tdiv c ∧ x.tdiv c ≤ max (low.tdiv c) (high.tdiv c) := by
  have positive : ∀ {c : Int}, 0 < c → low.tdiv c ≤ x.tdiv c ∧ x.tdiv c ≤ high.tdiv c :=
    fun pos => ⟨Int.tdiv_le_tdiv pos above, Int.tdiv_le_tdiv pos below⟩
  rcases lt_trichotomy c 0 with negative | zero | pos
  · have flipped := positive (Int.neg_pos_of_neg negative)
    simp only [Int.tdiv_neg] at flipped
    omega
  · simp [zero]
  · have straight := positive pos
    omega

/-! ## The operators -/

section Operators

variable {op : BinaryOp} {lhsMin lhsMax rhsMin rhsMax a b v : I32}

/-- `a` and `b` lie in the intervals of the operands. -/
structure Within (lhsMin lhsMax rhsMin rhsMax a b : I32) : Prop where
  lhsLow : lhsMin.toInt ≤ a.toInt
  lhsHigh : a.toInt ≤ lhsMax.toInt
  rhsLow : rhsMin.toInt ≤ b.toInt
  rhsHigh : b.toInt ≤ rhsMax.toInt

variable {lhs rhs : IntRange}

theorem toNat_of_nonneg (nonneg : 0 ≤ a.toInt) : a.toNat = a.toInt.toNat := by
  have := BitVec.toInt_eq_toNat_cond a
  split at this <;> omega

/-- The bounds hold for a number that the folded value is the remainder of. -/
theorem mathematicalBounds_sound {low high : Int}
    (bounds : mathematicalBounds op lhsMin.toInt lhsMax.toInt rhsMin.toInt rhsMax.toInt =
      some (low, high))
    (within : Within lhsMin lhsMax rhsMin rhsMax a b) :
    ∃ x : Int, low ≤ x ∧ x ≤ high ∧ foldBinary op a b = some (BitVec.ofInt 32 x) := by
  obtain ⟨lhsLow, lhsHigh, rhsLow, rhsHigh⟩ := within
  cases op with
  | add =>
    simp only [mathematicalBounds, Option.some.injEq, Prod.mk.injEq] at bounds
    exact ⟨a.toInt + b.toInt, by omega, by omega, congrArg some Word.add_eq_ofInt⟩
  | sub =>
    simp only [mathematicalBounds, Option.some.injEq, Prod.mk.injEq] at bounds
    exact ⟨a.toInt - b.toInt, by omega, by omega, congrArg some Word.sub_eq_ofInt⟩
  | mul =>
    simp only [mathematicalBounds, Option.some.injEq, Prod.mk.injEq] at bounds
    obtain ⟨rfl, rfl⟩ := bounds
    have outer := mul_between b.toInt lhsLow lhsHigh
    have inner := mul_between lhsMin.toInt rhsLow rhsHigh
    have inner' := mul_between lhsMax.toInt rhsLow rhsHigh
    simp only [Int.mul_comm b.toInt, Int.mul_comm rhsMin.toInt, Int.mul_comm rhsMax.toInt]
      at inner inner'
    exact ⟨a.toInt * b.toInt, by omega, by omega, congrArg some Word.mul_eq_ofInt⟩
  | shl =>
    simp only [mathematicalBounds] at bounds
    split at bounds
    · next single =>
        simp only [Option.some.injEq, Prod.mk.injEq] at bounds
        obtain ⟨rfl, rfl⟩ := bounds
        have shifted := mul_between (2 ^ rhsMin.toInt.toNat) lhsLow lhsHigh
        refine ⟨a.toInt * 2 ^ rhsMin.toInt.toNat, shifted.1, shifted.2, ?_⟩
        have amount : b.toNat % 32 = rhsMin.toInt.toNat := by
          rw [toNat_of_nonneg (by omega)]
          omega
        rw [foldBinary, amount, Word.shiftLeft_eq_ofInt]
    · cases bounds
  | min =>
    simp only [mathematicalBounds, Option.some.injEq, Prod.mk.injEq] at bounds
    have value := I32.toInt_smin a b
    refine ⟨min a.toInt b.toInt, by omega, by omega, ?_⟩
    rw [← value, BitVec.ofInt_toInt]
    rfl
  | max =>
    simp only [mathematicalBounds, Option.some.injEq, Prod.mk.injEq] at bounds
    have value := I32.toInt_smax a b
    refine ⟨max a.toInt b.toInt, by omega, by omega, ?_⟩
    rw [← value, BitVec.ofInt_toInt]
    rfl
  | _ => simp [mathematicalBounds] at bounds

theorem mathematicalBinary_sound {range : IntRange}
    (found : mathematicalBinary op lhsMin lhsMax rhsMin rhsMax = some range)
    (within : Within lhsMin lhsMax rhsMin rhsMax a b) :
    ∃ v, foldBinary op a b = some v ∧ range.contains v := by
  unfold mathematicalBinary at found
  split at found
  · cases found
  · next low high bounds =>
      split at found
      · cases found
      · next fits =>
          rw [I32.toInt_MIN, I32.toInt_MAX, not_or, not_lt, not_lt] at fits
          obtain ⟨x, above, below, folded⟩ := mathematicalBounds_sound bounds within
          refine ⟨_, folded, ?_⟩
          rw [← Option.some.inj found, contains_bounded, I32.toInt_ofInt (by omega) (by omega),
            I32.toInt_ofInt (by omega) (by omega), I32.toInt_ofInt (by omega) (by omega)]
          exact ⟨above, below⟩

theorem truth_mem (c : Bool) : (bounded 0 1).contains (truth c) := by
  cases c <;> decide

/-- A comparison folds to a truth value. -/
def compares (op : BinaryOp) (a b : I32) : Bool :=
  match op with
  | .eq => a == b
  | .notEq => a != b
  | .lt => a.slt b
  | .le => a.sle b
  | .gt => b.slt a
  | .ge => b.sle a
  | _ => false

theorem foldBinary_compare (compare : op.isCompare) :
    foldBinary op a b = some (truth (compares op a b)) := by
  cases op <;> first | rfl | cases compare

theorem provenTrue_sound (proven : provenTrue op lhsMin lhsMax rhsMin rhsMax)
    (within : Within lhsMin lhsMax rhsMin rhsMax a b) : compares op a b := by
  obtain ⟨lhsLow, lhsHigh, rhsLow, rhsHigh⟩ := within
  cases op <;>
    simp only [provenTrue, compares, Bool.or_eq_true, Bool.and_eq_true, BitVec.slt_iff_toInt_lt,
      BitVec.sle_iff_toInt_le, beq_iff_eq, bne_iff_ne, ne_eq, ← BitVec.toInt_inj,
      Bool.false_eq_true] at proven ⊢ <;>
    omega

theorem provenFalse_sound (proven : provenFalse op lhsMin lhsMax rhsMin rhsMax)
    (within : Within lhsMin lhsMax rhsMin rhsMax a b) : compares op a b = false := by
  obtain ⟨lhsLow, lhsHigh, rhsLow, rhsHigh⟩ := within
  rw [Bool.eq_false_iff]
  cases op <;>
    simp only [provenFalse, compares, Bool.or_eq_true, Bool.and_eq_true, BitVec.slt_iff_toInt_lt,
      BitVec.sle_iff_toInt_le, beq_iff_eq, bne_iff_ne, ne_eq, ← BitVec.toInt_inj,
      Bool.false_eq_true] at proven ⊢ <;>
    omega

theorem comparisonRange_sound (compare : op.isCompare)
    (within : Within lhsMin lhsMax rhsMin rhsMax a b) :
    ∃ v, foldBinary op a b = some v ∧
      (comparisonRange op lhsMin lhsMax rhsMin rhsMax).contains v := by
  refine ⟨_, foldBinary_compare compare, ?_⟩
  unfold comparisonRange
  split
  · next proven =>
      rw [provenTrue_sound proven within]
      exact contains_constant
  · split
    · next proven =>
        rw [provenFalse_sound proven within]
        exact contains_constant
    · exact truth_mem _

theorem and_mem {mask : I32} (nonneg : BitVec.sle 0 mask) :
    (bounded 0 mask).contains (a &&& mask) := by
  have zero : (0 : I32).toInt = 0 := rfl
  rw [BitVec.sle_iff_toInt_le, zero] at nonneg
  have below : (a &&& mask).toNat ≤ mask.toNat := by
    rw [BitVec.toNat_and]
    exact Nat.and_le_right
  have maskCond := BitVec.toInt_eq_toNat_cond mask
  have andCond := BitVec.toInt_eq_toNat_cond (a &&& mask)
  rw [contains_bounded, zero]
  split at maskCond <;> split at andCond <;> omega

theorem transferAnd_sound (inLhs : lhs.contains a) (inRhs : rhs.contains b) :
    (transferAnd lhs rhs).contains (a &&& b) := by
  unfold transferAnd
  split
  · next zero =>
      have isZero : a &&& b = 0 := by
        rcases zero with rhsZero | lhsZero
        · rw [eq_of_singleton rhsZero inRhs]
          exact BitVec.and_zero
        · rw [eq_of_singleton lhsZero inLhs]
          exact BitVec.zero_and
      rw [isZero]
      exact contains_constant
  · split
    · next mask known =>
        split
        · next nonneg =>
            cases single : lhs.singleton with
            | some only =>
              rw [single, Option.some_or] at known
              rw [eq_of_singleton single inLhs, Option.some.inj known, BitVec.and_comm]
              exact and_mem nonneg
            | none =>
              rw [single, Option.none_or] at known
              rw [eq_of_singleton known inRhs]
              exact and_mem nonneg
        · exact contains_full
    · exact contains_full

/-- `Or` and `Xor` with zero keep the other operand. -/
theorem transferOr_sound (inLhs : lhs.contains a) (inRhs : rhs.contains b)
    (zeroLeft : a = 0 → v = b) (zeroRight : b = 0 → v = a) : (transferOr lhs rhs).contains v := by
  unfold transferOr
  split
  · next single => rwa [zeroRight (eq_of_singleton single inRhs)]
  · split
    · next single => rwa [zeroLeft (eq_of_singleton single inLhs)]
    · exact contains_full

theorem transferDiv_sound (low : lhsMin.toInt ≤ a.toInt) (high : a.toInt ≤ lhsMax.toInt)
    (inLhs : lhs.contains a) (inRhs : rhs.contains b)
    (minInside : lhsMin = I32.MIN → lhs.contains I32.MIN)
    (maxInside : lhsMax = I32.MIN → lhs.contains I32.MIN) :
    (transferDiv lhs rhs lhsMin lhsMax).contains (a.sdiv b) := by
  unfold transferDiv
  split
  · exact contains_full
  · next divisor single =>
      split
      · exact contains_full
      · next overflows =>
          obtain rfl := eq_of_singleton single inRhs
          rw [not_or, not_and] at overflows
          have quotient : ∀ x : I32, (x = I32.MIN → lhs.contains I32.MIN) →
              (x.sdiv b).toInt = x.toInt.tdiv b.toInt := by
            intro x inside
            apply BitVec.toInt_sdiv_of_ne_or_ne
            by_contra overflow
            rw [not_or, not_not, not_not] at overflow
            exact overflows.2 overflow.2 (inside overflow.1)
          have between := tdiv_between b.toInt low high
          rw [contains_bounded, I32.toInt_smin, I32.toInt_smax, quotient lhsMin minInside,
            quotient lhsMax maxInside, quotient a fun isMin => isMin ▸ inLhs]
          exact between

theorem toInt_remMagnitude (divisor : I32) :
    (remMagnitude divisor).toInt = min (divisor.toInt.natAbs - 1 : Nat) (2 ^ 31 - 1 : Nat) := by
  rw [remMagnitude, ← BitVec.ofInt_natCast, I32.toInt_ofInt (by omega) (by omega)]

theorem transferRem_sound (low : lhsMin.toInt ≤ a.toInt) (inRhs : rhs.contains b)
    (nonzero : b ≠ 0) : (transferRem rhs lhsMin).contains (a.srem b) := by
  unfold transferRem
  split
  · exact contains_full
  · next divisor single =>
      obtain rfl := eq_of_singleton single inRhs
      have magnitude := toInt_remMagnitude b
      have bounds := I32.toInt_bounds b
      have bNonzero : b.toInt ≠ 0 := fun h => nonzero (I32.toInt_eq_zero.mp h)
      have below : (a.toInt.tmod b.toInt).natAbs < b.toInt.natAbs := by
        rw [Int.natAbs_tmod]
        exact Nat.mod_lt _ (Int.natAbs_pos.mpr bNonzero)
      rw [if_neg nonzero]
      split
      · next nonneg =>
          have zero : (0 : I32).toInt = 0 := rfl
          rw [BitVec.sle_iff_toInt_le, zero] at nonneg
          have sign : 0 ≤ a.toInt.tmod b.toInt := Int.tmod_nonneg _ (nonneg.trans low)
          rw [contains_bounded, zero, BitVec.toInt_srem, magnitude]
          omega
      · have negated : (-remMagnitude b).toInt = -(remMagnitude b).toInt := by
          apply BitVec.toInt_neg_of_ne_intMin
          intro isMin
          have := congrArg BitVec.toInt isMin
          rw [magnitude, BitVec.toInt_intMin_of_pos (by decide)] at this
          omega
        rw [contains_bounded, negated, BitVec.toInt_srem, magnitude]
        omega

theorem sshiftRight_mono {x y : I32} (le : x.toInt ≤ y.toInt) (k : Nat) :
    (x.sshiftRight k).toInt ≤ (y.sshiftRight k).toInt := by
  rw [BitVec.toInt_sshiftRight, BitVec.toInt_sshiftRight, Int.shiftRight_eq_div_pow,
    Int.shiftRight_eq_div_pow]
  exact Int.ediv_le_ediv (by positivity) le

theorem transferSar_sound (low : lhsMin.toInt ≤ a.toInt) (high : a.toInt ≤ lhsMax.toInt)
    (inRhs : rhs.contains b) :
    (transferSar rhs lhsMin lhsMax).contains (a.sshiftRight (b.toNat % 32)) := by
  unfold transferSar
  split
  · next shift single =>
      obtain rfl := eq_of_singleton single inRhs
      split
      · next small =>
          rw [Nat.mod_eq_of_lt small, contains_bounded]
          exact ⟨sshiftRight_mono low _, sshiftRight_mono high _⟩
      · exact contains_full
  · exact contains_full

/-- A logical shift gives a nonnegative number, except for a negative one shifted by zero. -/
theorem ushiftRight_mem_iff :
    (bounded 0 I32.MAX).contains (a >>> (b.toNat % 32)) ↔ 0 ≤ a.toInt ∨ b.toNat % 32 ≠ 0 := by
  have zero : (0 : I32).toInt = 0 := rfl
  have bounds := I32.toInt_bounds (a >>> (b.toNat % 32))
  rw [contains_bounded, zero, I32.toInt_MAX]
  by_cases none : b.toNat % 32 = 0
  · rw [none, BitVec.ushiftRight_zero] at bounds ⊢
    simp only [ne_eq, not_true, or_false]
    omega
  · have nonneg : 0 ≤ (a >>> (b.toNat % 32)).toInt := by
      rw [BitVec.toInt_ushiftRight_of_lt (by omega)]
      positivity
    simp only [ne_eq, none, not_false_eq_true, or_true, iff_true]
    omega

end Operators

/-! ## The transfer function -/

/-- The range of the operator contains every folded value of two contained operands. -/
def TransferSound (op : BinaryOp) (lhs rhs : IntRange) : Prop :=
  ∀ a b, lhs.contains a → rhs.contains b → (op.divides → b ≠ 0) →
    ∃ v, foldBinary op a b = some v ∧ (transferBinary op lhs rhs).contains v

/-- A logical right shift of operands that are not both known may shift a negative number by
no position. -/
def KeepsNegative (lhs rhs : IntRange) : Prop :=
  ¬ (lhs.singleton.isSome ∧ rhs.singleton.isSome) ∧
    ∃ a b, lhs.contains a ∧ rhs.contains b ∧ a.toInt < 0 ∧ b.toNat % 32 = 0

section Transfer

variable {op : BinaryOp} {lhsMin lhsMax rhsMin rhsMax a b : I32} {lhsZero rhsZero : Bool}

variable {lhs rhs : IntRange}

/-- An end of an interval that is `MIN` is contained when the interval is not empty. -/
theorem contains_MIN {min max end_ : I32} {zero : Bool}
    (inside : (interval min max zero).contains a) (isEnd : end_ = min ∨ end_ = max)
    (isMin : end_ = I32.MIN) : (interval min max zero).contains I32.MIN := by
  have bounds := I32.toInt_bounds a
  have endValue := congrArg BitVec.toInt isMin
  have nonzero : I32.MIN ≠ 0 := by decide
  rw [contains_interval, I32.toInt_MIN] at *
  refine ⟨?_, by omega, fun h => absurd h nonzero⟩
  have minBounds := I32.toInt_bounds min
  rcases isEnd with rfl | rfl <;> omega

theorem transferRest_sound (inLhs : (interval lhsMin lhsMax lhsZero).contains a)
    (inRhs : (interval rhsMin rhsMax rhsZero).contains b) (nonzero : op.divides → b ≠ 0)
    (noCompare : op.isCompare = false)
    (positive : op = .shr → 0 ≤ a.toInt ∨ b.toNat % 32 ≠ 0) :
    ∃ v, foldBinary op a b = some v ∧
      (transferRest op (interval lhsMin lhsMax lhsZero) (interval rhsMin rhsMax rhsZero) lhsMin
        lhsMax).contains v := by
  have within := contains_interval.mp inLhs
  cases op with
  | and => exact ⟨_, rfl, transferAnd_sound inLhs inRhs⟩
  | or =>
    exact ⟨_, rfl, transferOr_sound inLhs inRhs (fun h => h ▸ BitVec.zero_or)
      fun h => h ▸ BitVec.or_zero⟩
  | xor =>
    exact ⟨_, rfl, transferOr_sound inLhs inRhs (fun h => h ▸ BitVec.zero_xor)
      fun h => h ▸ BitVec.xor_zero⟩
  | div =>
    exact ⟨_, if_neg (nonzero rfl), transferDiv_sound within.1 within.2.1 inLhs inRhs
      (contains_MIN inLhs (.inl rfl)) (contains_MIN inLhs (.inr rfl))⟩
  | rem => exact ⟨_, if_neg (nonzero rfl), transferRem_sound within.1 inRhs (nonzero rfl)⟩
  | shr => exact ⟨_, rfl, ushiftRight_mem_iff.mpr (positive rfl)⟩
  | sar => exact ⟨_, rfl, transferSar_sound within.1 within.2.1 inRhs⟩
  | add | sub | mul | shl | min | max => exact ⟨_, rfl, contains_full⟩
  | eq | notEq | lt | le | gt | ge => cases noCompare

/-- Operands that are not both known. -/
theorem transferBinary_unknown (unknown : ¬ ((interval lhsMin lhsMax lhsZero).singleton.isSome ∧
      (interval rhsMin rhsMax rhsZero).singleton.isSome)) :
    transferBinary op (interval lhsMin lhsMax lhsZero) (interval rhsMin rhsMax rhsZero) =
      if op.isCompare then comparisonRange op lhsMin lhsMax rhsMin rhsMax
      else (mathematicalBinary op lhsMin lhsMax rhsMin rhsMax).getD
        (transferRest op (interval lhsMin lhsMax lhsZero)
          (interval rhsMin rhsMax rhsZero) lhsMin lhsMax) := by
  cases first : (interval lhsMin lhsMax lhsZero).singleton with
  | none => simp only [transferBinary, first]
  | some x =>
    cases second : (interval rhsMin rhsMax rhsZero).singleton with
    | none => simp only [transferBinary, first, second]
    | some y => simp [first, second] at unknown

theorem foldBinary_isSome (nonzero : op.divides → b ≠ 0) : ∃ v, foldBinary op a b = some v := by
  cases op with
  | div | rem => exact ⟨_, if_neg (nonzero rfl)⟩
  | _ => exact ⟨_, rfl⟩

theorem transferBinary_known (known : lhs.singleton.isSome) (known' : rhs.singleton.isSome)
    (inLhs : lhs.contains a) (inRhs : rhs.contains b) :
    transferBinary op lhs rhs = ((foldBinary op a b).map constant).getD full := by
  obtain ⟨x, isX⟩ := Option.isSome_iff_exists.mp known
  obtain ⟨y, isY⟩ := Option.isSome_iff_exists.mp known'
  rw [eq_of_singleton isX inLhs, eq_of_singleton isY inRhs]
  cases lhs <;> cases rhs <;>
    first | cases inLhs | cases inRhs | simp only [transferBinary, isX, isY]

/-- The value is contained, but for the logical shifts that keep a negative number. -/
theorem transferBinary_contains (inLhs : lhs.contains a) (inRhs : rhs.contains b)
    (nonzero : op.divides → b ≠ 0)
    (positive : op = .shr → lhs.singleton.isSome ∧ rhs.singleton.isSome ∨ 0 ≤ a.toInt ∨
    b.toNat % 32 ≠ 0) :
    ∃ v, foldBinary op a b = some v ∧ (transferBinary op lhs rhs).contains v := by
  by_cases known : lhs.singleton.isSome ∧ rhs.singleton.isSome
  · obtain ⟨v, folded⟩ := foldBinary_isSome nonzero
    refine ⟨v, folded, ?_⟩
    rw [transferBinary_known known.1 known.2 inLhs inRhs, folded]
    exact contains_constant
  · cases lhs with
    | empty => cases inLhs
    | interval lhsMin lhsMax lhsZero =>
      cases rhs with
      | empty => cases inRhs
      | interval rhsMin rhsMax rhsZero =>
        have lhsBounds := contains_interval.mp inLhs
        have rhsBounds := contains_interval.mp inRhs
        have within : Within lhsMin lhsMax rhsMin rhsMax a b :=
          ⟨lhsBounds.1, lhsBounds.2.1, rhsBounds.1, rhsBounds.2.1⟩
        rw [transferBinary_unknown known]
        split
        · next compare => exact comparisonRange_sound compare within
        · next noCompare =>
            cases found : mathematicalBinary op lhsMin lhsMax rhsMin rhsMax with
            | some range => exact mathematicalBinary_sound found within
            | none =>
              exact transferRest_sound inLhs inRhs nonzero (Bool.eq_false_iff.mpr noCompare)
                fun isShr => (positive isShr).resolve_left known

theorem transferBinary_shr_unknown (unknown : ¬ (lhs.singleton.isSome ∧ rhs.singleton.isSome))
    (inLhs : lhs.contains a) (inRhs : rhs.contains b) :
    transferBinary .shr lhs rhs = bounded 0 I32.MAX := by
  cases lhs with
  | empty => cases inLhs
  | interval lhsMin lhsMax lhsZero =>
    cases rhs with
    | empty => cases inRhs
    | interval rhsMin rhsMax rhsZero =>
      rw [transferBinary_unknown unknown]
      rfl

end Transfer

/-- The transfer function is sound exactly where no logical shift keeps a negative number. -/
theorem transferSound_iff (op : BinaryOp) (lhs rhs : IntRange) :
    TransferSound op lhs rhs ↔ ¬ (op = .shr ∧ KeepsNegative lhs rhs) := by
  constructor
  · rintro sound ⟨rfl, unknown, a, b, inLhs, inRhs, negative, none⟩
    obtain ⟨v, folded, inside⟩ := sound a b inLhs inRhs (by simp [BinaryOp.divides])
    rw [transferBinary_shr_unknown unknown inLhs inRhs, ← Option.some.inj folded,
      ushiftRight_mem_iff] at inside
    omega
  · intro excluded a b inLhs inRhs nonzero
    refine transferBinary_contains inLhs inRhs nonzero fun isShr => ?_
    by_contra keeps
    rw [not_or, not_or, not_not] at keeps
    exact excluded ⟨isShr, keeps.1, a, b, inLhs, inRhs, by omega, keeps.2.2⟩

/-- The numbers `-2` and `-1` shifted by zero. -/
theorem shr_not_transferSound : ¬ TransferSound .shr (bounded (-2) (-1)) (constant 0) := by
  intro sound
  obtain ⟨v, folded, inside⟩ := sound (-1) 0 (by decide) (by decide) (by decide)
  cases folded
  exact absurd inside (by decide)

end AnonCompiler.Opt
