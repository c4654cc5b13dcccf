import Mathlib.Order.Basic
import Mathlib.Tactic

/-!
# Binary search

The halving search of a slice: the half that can still hold the target is kept until one
element is left.  On strictly increasing keys it finds the position of the target, if there
is one.
-/

set_option autoImplicit false

namespace AnonCompiler.Lib

variable {α : Type} [LinearOrder α]

/-- The last element left of `size` elements from `base` on. -/
def searchBase (key : Nat → α) (target : α) (base size : Nat) : Nat :=
  if size ≤ 1 then base
  else
    searchBase key target (if target < key (base + size / 2) then base else base + size / 2)
      (size - size / 2)
termination_by size
decreasing_by omega

def binarySearch (key : Nat → α) (count : Nat) (target : α) : Option Nat :=
  if count ≠ 0 ∧ key (searchBase key target 0 count) = target then
    some (searchBase key target 0 count)
  else none

variable {key : Nat → α} {target : α} {count : Nat}

variable {base size i : Nat}

theorem searchBase_lt (nonempty : 0 < size) : searchBase key target base size < base + size := by
  induction base, size using searchBase.induct key target with
  | case1 base size small =>
    rw [searchBase, if_pos small]
    omega
  | case2 base size large ih =>
    have inside := ih (by omega)
    rw [searchBase, if_neg large]
    split at inside
    · next below => rw [if_pos below]; omega
    · next above => rw [if_neg above]; omega

theorem searchBase_eq (increasing : ∀ i j, i < j → j < count → key i < key j)
    (inside : base + size ≤ count) (low : base ≤ i) (high : i < base + size)
    (found : key i = target) : searchBase key target base size = i := by
  induction base, size using searchBase.induct key target with
  | case1 base size small =>
    rw [searchBase, if_pos small]
    omega
  | case2 base size large ih =>
    rw [searchBase, if_neg large]
    by_cases below : target < key (base + size / 2)
    · have before : i < base + size / 2 := by
        by_contra after
        rcases (not_lt.mp after).eq_or_lt with same | later
        · rw [same, found] at below
          exact lt_irrefl _ below
        · have := increasing _ _ later (by omega)
          rw [found] at this
          exact lt_asymm below this
      rw [dif_pos below] at ih
      rw [if_pos below]
      exact ih (by omega) low (by omega)
    · have after : base + size / 2 ≤ i := by
        by_contra before
        have := increasing _ _ (not_le.mp before) (by omega)
        rw [found] at this
        exact below this
      rw [dif_neg below] at ih
      rw [if_neg below]
      exact ih (by omega) after (by omega)

/-- The search finds the target, at its only position. -/
theorem binarySearch_eq_some (increasing : ∀ i j, i < j → j < count → key i < key j) :
    binarySearch key count target = some i ↔ i < count ∧ key i = target := by
  unfold binarySearch
  constructor
  · intro result
    split at result
    · next found =>
        obtain rfl := Option.some.inj result
        have inside : searchBase key target 0 count < 0 + count :=
          searchBase_lt (Nat.pos_of_ne_zero found.1)
        exact ⟨by omega, found.2⟩
    · cases result
  · rintro ⟨inside, found⟩
    have position : searchBase key target 0 count = i :=
      searchBase_eq increasing (by omega) (Nat.zero_le i) (by omega) found
    rw [position, if_pos ⟨by omega, found⟩]

end AnonCompiler.Lib
