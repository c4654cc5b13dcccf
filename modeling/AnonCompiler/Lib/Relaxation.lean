import Mathlib.Algebra.BigOperators.Group.Finset.Basic
import Mathlib.Algebra.Order.BigOperators.Group.Finset
import Mathlib.Algebra.BigOperators.Intervals
import Mathlib.Tactic

/-!
# Branch relaxation

Items are laid out one after the other, and some of them refer to a boundary between items.
A reference that is too far away makes its item longer, which can push other references out
of their reach.  The items that have to grow are those of the least closed set (`needed`);
relaxation in rounds climbs to it level by level.
-/

set_option autoImplicit false

namespace AnonCompiler.Lib

/-- `len` and `grow` are the lengths of an item and of what it grows by; a reference goes to
the boundary before the item `target`. -/
structure Relaxation where
  count : Nat
  len : Nat → Nat
  grow : Nat → Nat
  target : Nat → Option Nat
  reaches : Nat → Int → Bool
  /-- A shorter distance in the same direction is reached too. -/
  shorter : ∀ {i : Nat} {near far : Int}, 0 ≤ near ∧ near ≤ far ∨ far ≤ near ∧ near ≤ 0 →
    reaches i far = true → reaches i near = true

namespace Relaxation

variable (r : Relaxation)

/-- Where the item `k` begins when the items of `grown` have grown. -/
def offset (grown : Finset Nat) (k : Nat) : Nat :=
  ∑ i ∈ Finset.range k, (r.len i + if i ∈ grown then r.grow i else 0)

def distance (grown : Finset Nat) (i t : Nat) : Int :=
  (r.offset grown t : Int) - r.offset grown i

/-- The items whose reference is out of reach. -/
def pushed (grown : Finset Nat) : Finset Nat :=
  (Finset.range r.count).filter fun i =>
    i ∉ grown ∧ ∃ t ∈ r.target i, r.reaches i (r.distance grown i t) = false

/-- What has grown after so many rounds. -/
def level : Nat → Finset Nat
  | 0 => ∅
  | n + 1 => level n ∪ r.pushed (level n)

/-- The items that are in every set that nothing is pushed out of. -/
def needed : Finset Nat :=
  (Finset.range r.count).filter fun i =>
    ∀ grown ∈ (Finset.range r.count).powerset, r.pushed grown = ∅ → i ∈ grown

/-- After so many rounds nothing is out of reach. -/
def Settled (rounds : Nat) : Prop := r.pushed (r.level rounds) = ∅

instance (rounds : Nat) : Decidable (r.Settled rounds) := inferInstanceAs (Decidable (_ = _))

variable {r} {small large : Finset Nat}

variable {i n m : Nat}

theorem mem_pushed {grown : Finset Nat} :
    i ∈ r.pushed grown ↔ i < r.count ∧ i ∉ grown ∧
      ∃ t ∈ r.target i, r.reaches i (r.distance grown i t) = false := by
  rw [pushed, Finset.mem_filter, Finset.mem_range]

theorem offset_sub (grown : Finset Nat) {t : Nat} (le : i ≤ t) :
    r.offset grown t = r.offset grown i +
      ∑ k ∈ Finset.Ico i t, (r.len k + if k ∈ grown then r.grow k else 0) := by
  rw [offset, offset, Finset.sum_range_add_sum_Ico _ le]

/-- Growth takes references further away from their targets. -/
theorem distance_mono (subset : small ⊆ large) (i t : Nat) :
    0 ≤ r.distance small i t ∧ r.distance small i t ≤ r.distance large i t ∨
      r.distance large i t ≤ r.distance small i t ∧ r.distance small i t ≤ 0 := by
  have between : ∀ a b, ∑ k ∈ Finset.Ico a b, (r.len k + if k ∈ small then r.grow k else 0) ≤
      ∑ k ∈ Finset.Ico a b, (r.len k + if k ∈ large then r.grow k else 0) := by
    intro a b
    apply Finset.sum_le_sum
    intro k _
    by_cases member : k ∈ small
    · rw [if_pos member, if_pos (subset member)]
    · rw [if_neg member]
      exact Nat.add_le_add_left (Nat.zero_le _) _
  unfold distance
  rcases le_total i t with le | le
  · have := between i t
    rw [offset_sub small le, offset_sub large le]
    omega
  · have := between t i
    rw [offset_sub small le, offset_sub large le]
    omega

theorem pushed_mono (subset : small ⊆ large) : r.pushed small ⊆ large ∪ r.pushed large := by
  intro i isPushed
  obtain ⟨inside, _, t, isTarget, far⟩ := mem_pushed.mp isPushed
  by_cases member : i ∈ large
  · exact Finset.mem_union_left _ member
  · apply Finset.mem_union_right
    refine mem_pushed.mpr ⟨inside, member, t, isTarget, ?_⟩
    by_contra reached
    have near := r.shorter (distance_mono subset i t) (by simpa using reached)
    rw [far] at near
    cases near

theorem level_subset_range (n : Nat) : r.level n ⊆ Finset.range r.count := by
  induction n with
  | zero => exact Finset.empty_subset _
  | succ n ih => exact Finset.union_subset ih (Finset.filter_subset _ _)

/-- Every level is below every closed set. -/
theorem level_subset_of_closed (closed : r.pushed large = ∅) (n : Nat) : r.level n ⊆ large := by
  induction n with
  | zero => exact Finset.empty_subset _
  | succ n ih =>
    apply Finset.union_subset ih
    have later := pushed_mono (r := r) ih
    rwa [closed, Finset.union_empty] at later

theorem level_of_settled (settled : r.Settled n) (le : n ≤ m) : r.level m = r.level n := by
  induction m, le using Nat.le_induction with
  | base => rfl
  | succ m le ih => rw [level, ih, settled, Finset.union_empty]

theorem Settled.mono (settled : r.Settled n) (le : n ≤ m) : r.Settled m := by
  rw [Settled, level_of_settled settled le]
  exact settled

/-- Once relaxation has settled, what has grown is what had to grow. -/
theorem level_eq_needed (settled : r.Settled n) : r.level n = r.needed := by
  apply Finset.Subset.antisymm
  · intro i member
    refine Finset.mem_filter.mpr ⟨level_subset_range n member, fun grown _ closed => ?_⟩
    exact level_subset_of_closed closed n member
  · intro i member
    exact (Finset.mem_filter.mp member).2 _ (Finset.mem_powerset.mpr (level_subset_range n)) settled

end Relaxation

end AnonCompiler.Lib
