import Mathlib.Data.Tree.Basic
import Mathlib.Order.Lattice
import Mathlib.Data.List.Pairwise

/-!
# Search trees

Binary trees of indices whose keys are compared on the way down: an equal key
ends the search, a smaller one sends it to the left and a larger one to the
right.  When the keys increase along the tree, the search finds exactly the
index with the key (`SearchTree.find_eq_some_iff`).  `SearchTree.balanced`
halves a range of positions.
-/

set_option autoImplicit false

namespace AnonCompiler.Lib.SearchTree

universe u v

section Find

variable {ι : Type u} {α : Type v}

/-- The indices from left to right. -/
def inorder : BinaryTree ι → List ι
  | .nil => []
  | .node index left right => inorder left ++ index :: inorder right

variable [LinearOrder α] (key : ι → α) (x : α)

def find : BinaryTree ι → Option ι
  | .nil => none
  | .node index left right =>
    if x = key index then some index
    else if x < key index then find left
    else find right

variable {key x}

theorem find_eq_some_iff {t : BinaryTree ι}
    (sorted : (inorder t).Pairwise fun i j => key i < key j) {i : ι} :
    find key x t = some i ↔ i ∈ inorder t ∧ key i = x := by
  induction t with
  | nil => simp [find, inorder]
  | node index left right ihLeft ihRight =>
    simp only [inorder, List.pairwise_append, List.pairwise_cons, List.mem_cons] at sorted
    obtain ⟨sortedLeft, ⟨above, sortedRight⟩, apart⟩ := sorted
    have below : ∀ j ∈ inorder left, key j < key index := fun j inLeft =>
      apart j inLeft index (.inl rfl)
    rw [find, inorder, List.mem_append, List.mem_cons]
    rcases lt_trichotomy x (key index) with smaller | same | larger
    · rw [if_neg smaller.ne, if_pos smaller, ihLeft sortedLeft]
      constructor
      · exact fun ⟨inLeft, found⟩ => ⟨.inl inLeft, found⟩
      · rintro ⟨inLeft | rfl | inRight, found⟩
        · exact ⟨inLeft, found⟩
        · exact absurd found smaller.ne'
        · exact absurd found (smaller.trans (above i inRight)).ne'
    · rw [if_pos same]
      constructor
      · rintro ⟨⟩
        exact ⟨.inr (.inl rfl), same.symm⟩
      · rintro ⟨inLeft | rfl | inRight, found⟩
        · exact absurd (found.trans same) (below i inLeft).ne
        · rfl
        · exact absurd (found.trans same) (above i inRight).ne'
    · rw [if_neg larger.ne', if_neg larger.not_gt, ihRight sortedRight]
      constructor
      · exact fun ⟨inRight, found⟩ => ⟨.inr (.inr inRight), found⟩
      · rintro ⟨inLeft | rfl | inRight, found⟩
        · exact absurd found ((below i inLeft).trans larger).ne
        · exact absurd found larger.ne
        · exact ⟨inRight, found⟩

end Find

/-- The tree over the positions from `lo` up to `hi`, split in the middle. -/
def balanced (lo hi : Nat) : BinaryTree Nat :=
  if lo < hi then
    .node (lo + (hi - lo) / 2) (balanced lo (lo + (hi - lo) / 2))
      (balanced (lo + (hi - lo) / 2 + 1) hi)
  else .nil
termination_by hi - lo

theorem balanced_of_le {lo hi : Nat} (le : hi ≤ lo) : balanced lo hi = .nil := by
  rw [balanced, if_neg (Nat.not_lt.mpr le)]

theorem inorder_balanced (lo hi : Nat) : inorder (balanced lo hi) = List.range' lo (hi - lo) := by
  induction lo, hi using balanced.induct with
  | case1 lo hi inside ihLeft ihRight =>
    rw [balanced, if_pos inside, inorder, ihLeft, ihRight, Nat.add_sub_cancel_left]
    have whole : (hi - lo) / 2 + (hi - (lo + (hi - lo) / 2 + 1) + 1) = hi - lo := by omega
    have parts := congrArg (List.range' lo) whole
    rw [← List.range'_append_1, List.range'_succ] at parts
    exact parts
  | case2 lo hi outside =>
    rw [balanced, if_neg outside, Nat.sub_eq_zero_of_le (Nat.not_lt.mp outside)]
    rfl

/-- Searching the balanced tree over positions with increasing keys. -/
theorem find_balanced_eq_some_iff {α : Type v} [LinearOrder α] {key : Nat → α} {x : α}
    {lo hi : Nat} (sorted : ∀ i j, lo ≤ i → i < j → j < hi → key i < key j) {i : Nat} :
    find key x (balanced lo hi) = some i ↔ lo ≤ i ∧ i < hi ∧ key i = x := by
  rw [find_eq_some_iff, inorder_balanced, List.mem_range'_1]
  · constructor
    · rintro ⟨⟨low, high⟩, found⟩
      exact ⟨low, by omega, found⟩
    · rintro ⟨low, high, found⟩
      exact ⟨⟨low, by omega⟩, found⟩
  · rw [inorder_balanced]
    apply List.Pairwise.imp_of_mem _ List.pairwise_lt_range'
    intro i j inI inJ before
    rw [List.mem_range'_1] at inI inJ
    exact sorted i j inI.1 before (by omega)

end AnonCompiler.Lib.SearchTree
