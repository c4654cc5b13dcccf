import AnonCompiler.Ir.Exec

/-!
# Ranges of signed integers

The abstract domain of `opt/analysis_passes/range.rs`: one closed interval with an
optional hole at zero, and the transfer function of the binary operators.  A range
stands for the set of the values it contains (`mem_iff`); `bounded` and
`constant` build the ranges of an interval and of one value.
-/

set_option autoImplicit false

namespace AnonCompiler.Opt

open AnonCompiler.Ir

/-- `i32` values; the order is the signed one. -/
abbrev I32 := BitVec 32

namespace I32

def MIN : I32 := 0x80000000#32
def MAX : I32 := 0x7fffffff#32

theorem toInt_bounds (v : I32) : -2 ^ 31 ≤ v.toInt ∧ v.toInt < 2 ^ 31 :=
  ⟨BitVec.le_toInt v, BitVec.toInt_lt⟩

@[simp] theorem toInt_MIN : MIN.toInt = -2 ^ 31 := by decide
@[simp] theorem toInt_MAX : MAX.toInt = 2 ^ 31 - 1 := by decide

def smin (a b : I32) : I32 := if a.slt b then a else b
def smax (a b : I32) : I32 := if a.slt b then b else a

theorem toInt_smin (a b : I32) : (smin a b).toInt = min a.toInt b.toInt := by
  unfold smin
  split <;> rename_i order <;> rw [BitVec.slt_iff_toInt_lt] at order <;> omega

theorem toInt_smax (a b : I32) : (smax a b).toInt = max a.toInt b.toInt := by
  unfold smax
  split <;> rename_i order <;> rw [BitVec.slt_iff_toInt_lt] at order <;> omega

theorem toInt_ofInt {v : Int} (low : -2 ^ 31 ≤ v) (high : v < 2 ^ 31) :
    (BitVec.ofInt 32 v).toInt = v :=
  BitVec.toInt_ofInt_eq_self (by decide) low high

theorem toInt_eq_zero {v : I32} : v.toInt = 0 ↔ v = 0 := by
  rw [← BitVec.toInt_inj]
  rfl

end I32

/-- `interval` is the variant `Bounded` of the source. -/
inductive IntRange where
  | empty
  | interval (min max : I32) (containsZero : Bool)
deriving DecidableEq, Repr

namespace IntRange

def full : IntRange := .interval I32.MIN I32.MAX true

def constant (value : I32) : IntRange := .interval value value (value == 0)

/-- A lower and an upper end that is not the hole at zero. -/
def raise (min : I32) : I32 := if min = 0 then 1 else min
def lower (max : I32) : I32 := if max = 0 then -1 else max

/-- The hole at zero is closed where it lies at an end of the interval. -/
def normalized (min max : I32) (containsZero : Bool) : IntRange :=
  if max.slt min then .empty
  else if containsZero then .interval min max (min.sle 0 && BitVec.sle 0 max)
  else if (lower max).slt (raise min) then .empty
  else .interval (raise min) (lower max) false

def bounded (min max : I32) : IntRange := normalized min max (min.sle 0 && BitVec.sle 0 max)

def singleton : IntRange → Option I32
  | .interval min max _ => if min = max then some min else none
  | .empty => none

def contains : IntRange → I32 → Bool
  | .empty, _ => false
  | .interval min max containsZero, value =>
    min.sle value && value.sle max && (value != 0 || containsZero)

/-! ## What the ranges contain -/

variable {min max value : I32}

theorem contains_interval {zero : Bool} :
    (interval min max zero).contains value ↔
      min.toInt ≤ value.toInt ∧ value.toInt ≤ max.toInt ∧ (value = 0 → zero) := by
  simp only [contains, Bool.and_eq_true, BitVec.sle_iff_toInt_le, Bool.or_eq_true, bne_iff_ne,
    and_assoc, ← imp_iff_not_or, ne_eq]

theorem contains_full : full.contains value := by
  have := I32.toInt_bounds value
  rw [full, contains_interval, I32.toInt_MIN, I32.toInt_MAX]
  exact ⟨by omega, by omega, fun _ => rfl⟩

theorem contains_constant : (constant value).contains value := by
  rw [constant, contains_interval]
  exact ⟨le_rfl, le_rfl, fun zero => beq_iff_eq.mpr zero⟩

theorem toInt_raise : (raise min).toInt = if min.toInt = 0 then 1 else min.toInt := by
  rw [raise, apply_ite BitVec.toInt]
  simp only [I32.toInt_eq_zero]
  rfl

theorem toInt_lower : (lower max).toInt = if max.toInt = 0 then -1 else max.toInt := by
  rw [lower, apply_ite BitVec.toInt]
  simp only [I32.toInt_eq_zero]
  rfl

theorem contains_normalized {zero : Bool} :
    (normalized min max zero).contains value ↔
      min.toInt ≤ value.toInt ∧ value.toInt ≤ max.toInt ∧ (value = 0 → zero) := by
  have zeroIff := I32.toInt_eq_zero (v := value)
  unfold normalized
  split
  · next order =>
      rw [BitVec.slt_iff_toInt_lt] at order
      simp only [contains, Bool.false_eq_true, false_iff]
      omega
  · next order =>
      rw [BitVec.slt_iff_toInt_lt] at order
      cases zero with
      | true =>
        simp only [if_true, contains_interval, Bool.and_eq_true, BitVec.sle_iff_toInt_le]
        have : (0 : I32).toInt = 0 := rfl
        constructor
        · rintro ⟨low, high, -⟩
          exact ⟨low, high, fun _ => trivial⟩
        · rintro ⟨low, high, -⟩
          refine ⟨low, high, fun isZero => ?_⟩
          rw [isZero] at low high
          exact ⟨low, high⟩
      | false =>
        simp only [Bool.false_eq_true, if_false, imp_false, ← zeroIff]
        split
        · next crossed =>
            rw [BitVec.slt_iff_toInt_lt, toInt_raise, toInt_lower] at crossed
            simp only [contains, Bool.false_eq_true, false_iff]
            split at crossed <;> split at crossed <;> omega
        · rw [contains_interval, toInt_raise, toInt_lower]
          simp only [Bool.false_eq_true, imp_false, ← zeroIff]
          split <;> split <;> omega

theorem contains_bounded :
    (bounded min max).contains value ↔ min.toInt ≤ value.toInt ∧ value.toInt ≤ max.toInt := by
  rw [bounded, contains_normalized]
  constructor
  · rintro ⟨low, high, -⟩
    exact ⟨low, high⟩
  · rintro ⟨low, high⟩
    refine ⟨low, high, fun isZero => ?_⟩
    rw [isZero] at low high
    simp only [Bool.and_eq_true, BitVec.sle_iff_toInt_le]
    exact ⟨low, high⟩

theorem eq_of_singleton {range : IntRange} {only : I32} (single : range.singleton = some only)
    (inside : range.contains value) : value = only := by
  cases range with
  | empty => cases single
  | interval min max zero =>
    rw [contains_interval] at inside
    simp only [singleton] at single
    split at single
    · next same =>
        subst same
        rw [← Option.some.inj single, ← BitVec.toInt_inj]
        omega
    · cases single

end IntRange

/-! ## The transfer function -/

open IntRange

/-- The mathematical bounds of a result; the source computes them in `i64`, where none of
them overflows. -/
def mathematicalBounds (op : BinaryOp) (lhsMin lhsMax rhsMin rhsMax : Int) : Option (Int × Int) :=
  match op with
  | .add => some (lhsMin + rhsMin, lhsMax + rhsMax)
  | .sub => some (lhsMin - rhsMax, lhsMax - rhsMin)
  | .mul =>
    some (min (min (min (lhsMin * rhsMin) (lhsMin * rhsMax)) (lhsMax * rhsMin)) (lhsMax * rhsMax),
      max (max (max (lhsMin * rhsMin) (lhsMin * rhsMax)) (lhsMax * rhsMin)) (lhsMax * rhsMax))
  | .shl =>
    if rhsMin = rhsMax ∧ 0 ≤ rhsMin ∧ rhsMin < 32 then
      some (min (lhsMin * 2 ^ rhsMin.toNat) (lhsMax * 2 ^ rhsMin.toNat),
        max (lhsMin * 2 ^ rhsMin.toNat) (lhsMax * 2 ^ rhsMin.toNat))
    else none
  | .min => some (min lhsMin rhsMin, min lhsMax rhsMax)
  | .max => some (max lhsMin rhsMin, max lhsMax rhsMax)
  | _ => none

def mathematicalBinary (op : BinaryOp) (lhsMin lhsMax rhsMin rhsMax : I32) : Option IntRange :=
  match mathematicalBounds op lhsMin.toInt lhsMax.toInt rhsMin.toInt rhsMax.toInt with
  | none => none
  | some (low, high) =>
    if low < I32.MIN.toInt ∨ I32.MAX.toInt < high then none
    else some (bounded (BitVec.ofInt 32 low) (BitVec.ofInt 32 high))

def provenTrue (op : BinaryOp) (lhsMin lhsMax rhsMin rhsMax : I32) : Bool :=
  match op with
  | .eq => lhsMin == lhsMax && rhsMin == rhsMax && lhsMin == rhsMin
  | .notEq => lhsMax.slt rhsMin || rhsMax.slt lhsMin
  | .lt => lhsMax.slt rhsMin
  | .le => lhsMax.sle rhsMin
  | .gt => rhsMax.slt lhsMin
  | .ge => rhsMax.sle lhsMin
  | _ => false

def provenFalse (op : BinaryOp) (lhsMin lhsMax rhsMin rhsMax : I32) : Bool :=
  match op with
  | .eq => lhsMax.slt rhsMin || rhsMax.slt lhsMin
  | .notEq => lhsMin == lhsMax && rhsMin == rhsMax && lhsMin == rhsMin
  | .lt => rhsMax.sle lhsMin
  | .le => rhsMax.slt lhsMin
  | .gt => lhsMax.sle rhsMin
  | .ge => lhsMax.slt rhsMin
  | _ => false

def comparisonRange (op : BinaryOp) (lhsMin lhsMax rhsMin rhsMax : I32) : IntRange :=
  if provenTrue op lhsMin lhsMax rhsMin rhsMax then constant 1
  else if provenFalse op lhsMin lhsMax rhsMin rhsMax then constant 0
  else bounded 0 1

def transferDiv (lhs rhs : IntRange) (lhsMin lhsMax : I32) : IntRange :=
  match rhs.singleton with
  | none => full
  | some divisor =>
    if divisor = 0 ∨ divisor = -1 ∧ lhs.contains I32.MIN then full
    else bounded (I32.smin (lhsMin.sdiv divisor) (lhsMax.sdiv divisor))
      (I32.smax (lhsMin.sdiv divisor) (lhsMax.sdiv divisor))

/-- `divisor.unsigned_abs().saturating_sub(1).min(i32::MAX as u32) as i32` -/
def remMagnitude (divisor : I32) : I32 :=
  BitVec.ofNat 32 (min (divisor.toInt.natAbs - 1) (2 ^ 31 - 1))

def transferRem (rhs : IntRange) (lhsMin : I32) : IntRange :=
  match rhs.singleton with
  | none => full
  | some divisor =>
    if divisor = 0 then full
    else if BitVec.sle 0 lhsMin then bounded 0 (remMagnitude divisor)
    else bounded (-remMagnitude divisor) (remMagnitude divisor)

def transferAnd (lhs rhs : IntRange) : IntRange :=
  if rhs.singleton = some 0 ∨ lhs.singleton = some 0 then constant 0
  else
    match lhs.singleton.or rhs.singleton with
    | some mask => if BitVec.sle 0 mask then bounded 0 mask else full
    | none => full

/-- `Or` and `Xor`. -/
def transferOr (lhs rhs : IntRange) : IntRange :=
  if rhs.singleton = some 0 then lhs
  else if lhs.singleton = some 0 then rhs
  else full

def transferSar (rhs : IntRange) (lhsMin lhsMax : I32) : IntRange :=
  match rhs.singleton with
  | some shift =>
    if shift.toNat < 32 then
      bounded (lhsMin.sshiftRight shift.toNat) (lhsMax.sshiftRight shift.toNat)
    else full
  | none => full

/-- The arms of the last `match`. -/
def transferRest (op : BinaryOp) (lhs rhs : IntRange) (lhsMin lhsMax : I32) : IntRange :=
  match op with
  | .and => transferAnd lhs rhs
  | .or | .xor => transferOr lhs rhs
  | .div => transferDiv lhs rhs lhsMin lhsMax
  | .rem => transferRem rhs lhsMin
  | .shr => bounded 0 I32.MAX
  | .sar => transferSar rhs lhsMin lhsMax
  | _ => full

/-- A division of two known values has none to fold to exactly when the divisor is zero. -/
def transferBinary (op : BinaryOp) (lhs rhs : IntRange) : IntRange :=
  match lhs, rhs with
  | .interval lhsMin lhsMax _, .interval rhsMin rhsMax _ =>
    match lhs.singleton, rhs.singleton with
    | some a, some b => ((foldBinary op a b).map constant).getD full
    | _, _ =>
      if op.isCompare then comparisonRange op lhsMin lhsMax rhsMin rhsMax
      else (mathematicalBinary op lhsMin lhsMax rhsMin rhsMax).getD
        (transferRest op lhs rhs lhsMin lhsMax)
  | _, _ => .empty

end AnonCompiler.Opt
