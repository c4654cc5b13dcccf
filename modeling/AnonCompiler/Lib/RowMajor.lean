import Mathlib.Algebra.BigOperators.Group.List.Basic
import Mathlib.Data.List.Chain
import Mathlib.Tactic.Ring

/-!
# Arrays in row-major order

An array of several dimensions is a row of its elements.  A position in the row and the
indices of the element determine each other: `digits` takes a position apart, innermost
dimension first, and `position` puts indices together, outermost first.  `chunks` cuts a
row into the rows of one dimension.
-/

set_option autoImplicit false

namespace AnonCompiler.Lib

variable {α β : Type}

/-! ## Positions and indices -/

/-- The remainders of repeated division by the dimensions. -/
def digits : List Nat → Nat → List Nat
  | [], _ => []
  | dim :: outer, rest => rest % dim :: digits outer (rest / dim)

/-- The position of the element with the given indices. -/
def position : List Nat → List Nat → Nat
  | _ :: inner, index :: rest => index * inner.prod + position inner rest
  | _, _ => 0

theorem digits_append (xs ys : List Nat) (n : Nat) :
    digits (xs ++ ys) n = digits xs n ++ digits ys (n / xs.prod) := by
  induction xs generalizing n with
  | nil => simp [digits]
  | cons x xs ih => simp [digits, ih, Nat.div_div_eq_div_mul]

theorem digits_lt {dims : List Nat} (positive : ∀ d ∈ dims, 0 < d) (n : Nat) :
    List.Forall₂ (· < ·) (digits dims n) dims := by
  induction dims generalizing n with
  | nil => exact .nil
  | cons dim outer ih =>
    refine .cons (Nat.mod_lt _ (positive dim List.mem_cons_self)) ?_
    exact ih (fun d member => positive d (List.mem_cons_of_mem _ member)) _

/-- The digits with the outermost dimension first. -/
theorem digits_reverse_cons (dim : Nat) (inner : List Nat) (n : Nat) :
    (digits (dim :: inner).reverse n).reverse =
      n / inner.prod % dim :: (digits inner.reverse n).reverse := by
  rw [List.reverse_cons, digits_append, List.prod_reverse]
  simp [digits]

theorem position_digits (dims : List Nat) (n : Nat) :
    position dims (digits dims.reverse n).reverse = n % dims.prod := by
  induction dims with
  | nil => simp [position, Nat.mod_one]
  | cons dim inner ih =>
    rw [digits_reverse_cons, position, ih, List.prod_cons, Nat.mul_comm dim, Nat.mod_mul]
    ring

theorem prod_drop_dvd (dims : List Nat) (k : Nat) : (dims.drop k).prod ∣ dims.prod :=
  ⟨(dims.take k).prod, by rw [Nat.mul_comm, List.prod_take_mul_prod_drop]⟩

/-! ## Rows -/

/-- The pieces of `n` elements, the last of them possibly shorter. -/
def chunks (n : Nat) (row : List α) : List (List α) :=
  (List.range ((row.length + n - 1) / n)).map fun k => (row.drop (k * n)).take n

theorem flatten_pieces (n count : Nat) (row : List α) :
    ((List.range count).map fun k => (row.drop (k * n)).take n).flatten = row.take (count * n) := by
  induction count with
  | zero => simp
  | succ count ih =>
    rw [List.range_succ, List.map_append, List.flatten_append, ih, Nat.succ_mul, List.take_add]
    simp

variable {n count : Nat} {row : List α}

section

variable (positive : 0 < n) (length : row.length = count * n)
include positive length

theorem chunks_count : (row.length + n - 1) / n = count := by
  rw [length, Nat.add_sub_assoc positive, Nat.add_comm, Nat.add_mul_div_right _ _ positive,
    Nat.div_eq_of_lt (Nat.sub_lt positive Nat.one_pos), Nat.zero_add]

theorem chunks_length : (chunks n row).length = count := by
  rw [chunks, List.length_map, List.length_range, chunks_count positive length]

theorem flatten_chunks : (chunks n row).flatten = row := by
  rw [chunks, chunks_count positive length, flatten_pieces, ← length, List.take_length]

theorem chunk_length {piece : List α} (member : piece ∈ chunks n row) : piece.length = n := by
  rw [chunks, chunks_count positive length] at member
  obtain ⟨k, inRange, rfl⟩ := List.mem_map.mp member
  have below : (k + 1) * n ≤ count * n := Nat.mul_le_mul_right n (List.mem_range.mp inRange)
  rw [Nat.succ_mul] at below
  rw [List.length_take, List.length_drop, length]
  omega

end

theorem mem_of_mem_chunk {piece : List α} (member : piece ∈ chunks n row) {a : α}
    (inPiece : a ∈ piece) : a ∈ row := by
  obtain ⟨k, -, rfl⟩ := List.mem_map.mp member
  exact List.mem_of_mem_drop (List.mem_of_mem_take inPiece)

end AnonCompiler.Lib
