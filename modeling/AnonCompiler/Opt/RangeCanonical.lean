import AnonCompiler.Opt.RangeAnalysis

/-!
# Canonical ranges

Every range the analysis computes is canonical: its ends are values it contains, and it
has a hole at zero only where zero lies between them.  A canonical range that is joined
with another one and changes contains more values, and is larger by `size`, which no
range lets grow for ever.
-/

set_option autoImplicit false

namespace AnonCompiler.Opt

open Ir Lib

namespace IntRange

def Canonical : IntRange → Prop
  | .empty => True
  | .interval min max true => min.toInt ≤ 0 ∧ 0 ≤ max.toInt
  | .interval min max false => min.toInt ≤ max.toInt ∧ min.toInt ≠ 0 ∧ max.toInt ≠ 0

variable {a b : IntRange} {min max value : I32} {zero : Bool}

theorem canonical_normalized (min max : I32) (zero : Bool) :
    (normalized min max zero).Canonical := by
  have zeroIs : (0 : I32).toInt = 0 := rfl
  unfold normalized
  split
  · trivial
  · next order =>
      rw [BitVec.slt_iff_toInt_lt] at order
      cases zero with
      | true =>
        rw [if_pos rfl]
        cases within : min.sle 0 && BitVec.sle 0 max with
        | true =>
          rw [Bool.and_eq_true, BitVec.sle_iff_toInt_le, BitVec.sle_iff_toInt_le] at within
          exact within
        | false =>
          rw [Bool.and_eq_false_iff, ← Bool.not_eq_true, ← Bool.not_eq_true,
            BitVec.sle_iff_toInt_le, BitVec.sle_iff_toInt_le] at within
          refine ⟨?_, ?_, ?_⟩ <;> omega
      | false =>
        rw [if_neg Bool.false_ne_true]
        split
        · trivial
        · next crossed =>
            rw [BitVec.slt_iff_toInt_lt] at crossed
            refine ⟨by omega, ?_, ?_⟩
            · rw [toInt_raise]
              split <;> omega
            · rw [toInt_lower]
              split <;> omega

theorem canonical_bounded (min max : I32) : (bounded min max).Canonical :=
  canonical_normalized min max _

theorem canonical_full : full.Canonical := ⟨by decide, by decide⟩

theorem canonical_constant (value : I32) : (constant value).Canonical := by
  by_cases isZero : value = 0
  · subst isZero
    exact ⟨le_rfl, le_rfl⟩
  · have nonzero : value.toInt ≠ 0 := fun h => isZero (I32.toInt_eq_zero.mp h)
    rw [constant, beq_eq_false_iff_ne.mpr isZero]
    exact ⟨le_rfl, nonzero, nonzero⟩

theorem canonical_join (left : a.Canonical) (right : b.Canonical) : (a.join b).Canonical := by
  cases a with
  | empty => exact right
  | interval =>
    cases b with
    | empty => exact left
    | interval => exact canonical_normalized _ _ _

theorem canonical_intersect (a b : IntRange) : (a.intersect b).Canonical := by
  cases a with
  | empty => trivial
  | interval =>
    cases b with
    | empty => trivial
    | interval => exact canonical_normalized _ _ _

theorem canonical_widen (left : a.Canonical) (right : b.Canonical) : (a.widen b).Canonical := by
  cases a with
  | empty => exact right
  | interval =>
    cases b with
    | empty => exact left
    | interval => exact canonical_normalized _ _ _

theorem canonical_assumeNe (canonical : a.Canonical) (other : IntRange) :
    (a.assumeNe other).Canonical := by
  unfold assumeNe
  split
  · exact canonical
  · split
    · cases a with
      | empty => trivial
      | interval =>
        dsimp only
        split
        · trivial
        · exact canonical_normalized _ _ _
    · split
      · trivial
      · exact canonical

theorem canonical_assumeLt (a other : IntRange) : (a.assumeLt other).Canonical := by
  unfold assumeLt
  split
  · trivial
  · split
    · trivial
    · exact canonical_intersect _ _

theorem canonical_assumeLe (a other : IntRange) : (a.assumeLe other).Canonical := by
  unfold assumeLe
  split
  · trivial
  · exact canonical_intersect _ _

theorem canonical_assumeGt (a other : IntRange) : (a.assumeGt other).Canonical := by
  unfold assumeGt
  split
  · trivial
  · split
    · trivial
    · exact canonical_intersect _ _

theorem canonical_assumeGe (a other : IntRange) : (a.assumeGe other).Canonical := by
  unfold assumeGe
  split
  · trivial
  · exact canonical_intersect _ _

/-! ## What a canonical range contains -/

theorem contains_ends (canonical : (interval min max zero).Canonical) :
    (interval min max zero).contains min ∧ (interval min max zero).contains max := by
  rw [contains_interval, contains_interval]
  cases zero with
  | true =>
    obtain ⟨low, high⟩ := canonical
    exact ⟨⟨le_rfl, by omega, fun _ => rfl⟩, by omega, le_rfl, fun _ => rfl⟩
  | false =>
    obtain ⟨order, low, high⟩ := canonical
    refine ⟨⟨le_rfl, order, fun isZero => ?_⟩, order, le_rfl, fun isZero => ?_⟩
    · exact absurd (I32.toInt_eq_zero.mpr isZero) low
    · exact absurd (I32.toInt_eq_zero.mpr isZero) high

theorem contains_zero_iff (canonical : (interval min max zero).Canonical) :
    (interval min max zero).contains 0 ↔ zero := by
  rw [contains_interval]
  refine ⟨fun inside => inside.2.2 rfl, fun isTrue => ?_⟩
  subst isTrue
  exact ⟨canonical.1, canonical.2, fun _ => rfl⟩

def Subset (a b : IntRange) : Prop := ∀ value, a.contains value → b.contains value

theorem Subset.refl (a : IntRange) : Subset a a := fun _ inside => inside

theorem Subset.trans {a b c : IntRange} (first : Subset a b) (second : Subset b c) : Subset a c :=
  fun value inside => second value (first value inside)

theorem subset_join (a b : IntRange) : Subset a (a.join b) := by
  intro value inside
  cases a with
  | empty => simp [contains] at inside
  | interval =>
    cases b with
    | empty => exact inside
    | interval =>
      rw [contains_interval] at inside
      obtain ⟨low, high, hole⟩ := inside
      rw [join, contains_normalized, I32.toInt_smin, I32.toInt_smax]
      exact ⟨by omega, by omega, fun isZero => by rw [hole isZero, Bool.true_or]⟩

/-! ## Size -/

/-- Twice the width of the interval, and one more for zero. -/
def size : IntRange → Nat
  | .empty => 0
  | .interval min max zero => 2 * (max.toInt - min.toInt).toNat + zero.toNat + 1

@[simp] theorem size_interval :
    (interval min max zero).size = 2 * (max.toInt - min.toInt).toNat + zero.toNat + 1 := rfl

def maxSize : Nat := 2 ^ 33

theorem size_le (range : IntRange) : range.size ≤ maxSize := by
  cases range with
  | empty => exact Nat.zero_le _
  | interval min max zero =>
    have := I32.toInt_bounds min
    have := I32.toInt_bounds max
    have := zero.toNat_le
    rw [size_interval, maxSize]
    omega

/-- A canonical range contains its ends, so one that contains more is wider. -/
theorem size_lt (canonical : a.Canonical) (subset : Subset a b) (differ : b ≠ a) :
    a.size < b.size := by
  cases a with
  | empty =>
    cases b with
    | empty => exact absurd rfl differ
    | interval => exact Nat.succ_pos _
  | interval min max zero =>
    obtain ⟨hasMin, hasMax⟩ := contains_ends canonical
    have hasMin := subset _ hasMin
    have hasMax := subset _ hasMax
    cases b with
    | empty => simp [contains] at hasMin
    | interval min' max' zero' =>
      have hasZero : zero → zero' := fun isTrue => by
        have := subset 0 ((contains_zero_iff canonical).mpr isTrue)
        rw [contains_interval] at this
        exact this.2.2 rfl
      rw [contains_interval] at hasMin hasMax
      have zeros : zero.toNat ≤ zero'.toNat := Bool.toNat_le_toNat hasZero
      rw [size_interval, size_interval]
      by_cases sameEnds : min.toInt = min'.toInt ∧ max.toInt = max'.toInt
      · obtain ⟨sameMin, sameMax⟩ := sameEnds
        have differZero : zero ≠ zero' := by
          rintro rfl
          exact differ (by rw [BitVec.toInt_inj.mp sameMin, BitVec.toInt_inj.mp sameMax])
        have : zero.toNat < zero'.toNat := by
          cases zero <;> cases zero' <;> simp_all
        rw [sameMin, sameMax]
        omega
      · have order : min.toInt ≤ max.toInt := by
          have := contains_ends canonical
          rw [contains_interval] at this
          exact this.1.2.1
        have := zero.toNat_le
        omega

/-- A join that changes a range makes it larger. -/
theorem size_merge (canonical : a.Canonical) (b : IntRange) :
    a.size + (merge a b).2.toNat ≤ (merge a b).1.size := by
  by_cases same : a.join b = a
  · simp [merge, same]
  · have := size_lt canonical (subset_join a b) same
    simp only [merge, ne_eq, same, not_false_eq_true, decide_true, Bool.toNat_true]
    omega

end IntRange

/-! ## The transfer functions -/

section Transfer

open IntRange

variable {op : BinaryOp} {lhs rhs : IntRange} {lhsMin lhsMax rhsMin rhsMax : I32}

theorem canonical_comparisonRange : (comparisonRange op lhsMin lhsMax rhsMin rhsMax).Canonical := by
  unfold comparisonRange
  split
  · exact canonical_constant 1
  · split
    · exact canonical_constant 0
    · exact canonical_bounded 0 1

theorem canonical_mathematicalBinary {range : IntRange}
    (isRange : mathematicalBinary op lhsMin lhsMax rhsMin rhsMax = some range) :
    range.Canonical := by
  unfold mathematicalBinary at isRange
  split at isRange
  · cases isRange
  · split at isRange
    · cases isRange
    · cases isRange
      exact canonical_bounded _ _

theorem canonical_transferAnd : (transferAnd lhs rhs).Canonical := by
  unfold transferAnd
  split
  · exact canonical_constant 0
  · split
    · split
      · exact canonical_bounded _ _
      · exact canonical_full
    · exact canonical_full

theorem canonical_transferOr (left : lhs.Canonical) (right : rhs.Canonical) :
    (transferOr lhs rhs).Canonical := by
  unfold transferOr
  split
  · exact left
  · split
    · exact right
    · exact canonical_full

theorem canonical_transferDiv : (transferDiv lhs rhs lhsMin lhsMax).Canonical := by
  unfold transferDiv
  split
  · exact canonical_full
  · split
    · exact canonical_full
    · exact canonical_bounded _ _

theorem canonical_transferRem : (transferRem rhs lhsMin).Canonical := by
  unfold transferRem
  split
  · exact canonical_full
  · split
    · exact canonical_full
    · split
      · exact canonical_bounded _ _
      · exact canonical_bounded _ _

theorem canonical_transferSar : (transferSar rhs lhsMin lhsMax).Canonical := by
  unfold transferSar
  split
  · split
    · exact canonical_bounded _ _
    · exact canonical_full
  · exact canonical_full

section

variable (left : lhs.Canonical) (right : rhs.Canonical)
include left right

theorem canonical_transferRest : (transferRest op lhs rhs lhsMin lhsMax).Canonical := by
  cases op with
  | and => exact canonical_transferAnd
  | or | xor => exact canonical_transferOr left right
  | div => exact canonical_transferDiv
  | rem => exact canonical_transferRem
  | shr => exact canonical_bounded _ _
  | sar => exact canonical_transferSar
  | _ => exact canonical_full

theorem canonical_transferBinary : (transferBinary op lhs rhs).Canonical := by
  unfold transferBinary
  split
  · split
    · cases foldBinary op _ _ with
      | none => exact canonical_full
      | some value => exact canonical_constant value
    · split
      · exact canonical_comparisonRange
      · cases exact : mathematicalBinary op _ _ _ _ with
        | none => exact canonical_transferRest left right
        | some range => exact canonical_mathematicalBinary exact
  · trivial

theorem canonical_refineComparison :
    (refineComparison op lhs rhs).1.Canonical ∧ (refineComparison op lhs rhs).2.Canonical := by
  cases op with
  | eq => exact ⟨canonical_intersect _ _, canonical_intersect _ _⟩
  | notEq => exact ⟨canonical_assumeNe left rhs, canonical_assumeNe right lhs⟩
  | lt => exact ⟨canonical_assumeLt _ _, canonical_assumeGt _ _⟩
  | le => exact ⟨canonical_assumeLe _ _, canonical_assumeGe _ _⟩
  | gt => exact ⟨canonical_assumeGt _ _, canonical_assumeLt _ _⟩
  | ge => exact ⟨canonical_assumeGe _ _, canonical_assumeLe _ _⟩
  | _ => exact ⟨left, right⟩

end

end Transfer

end AnonCompiler.Opt
