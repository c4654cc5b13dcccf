import Mathlib.Tactic

/-!
# Division by multiplication

A division by `d` is a multiplication by `M` and a division by `P` when `M * d` exceeds `P`
by little: by an excess `e` that stays below `P` when multiplied with the largest numerator
of the range whose remainder is `d - 1`.  The quotient of a negative numerator is rounded
down by one too many.
-/

set_option autoImplicit false

namespace AnonCompiler.Lib.Magic

variable {d M P e n : Nat}

section Quotient

variable (multiple : M * d = P + e) (pos : 0 < d)

include multiple in
theorem mul_product : d * (M * n) = d * (n / d * P) + (n % d * P + n * e) := by
  calc d * (M * n) = (P + e) * n := by rw [← multiple]; ring
    _ = P * (d * (n / d) + n % d) + n * e := by rw [Nat.div_add_mod]; ring
    _ = d * (n / d * P) + (n % d * P + n * e) := by ring

include pos in
theorem complement : (d - n % d) * P + n % d * P = d * P := by
  rw [← Nat.add_mul, Nat.sub_add_cancel (Nat.mod_lt n pos).le]

include multiple pos in
/-- The error of the multiplication does not reach the next quotient. -/
theorem mul_div_eq (room : n * e < (d - n % d) * P) : M * n / P = n / d := by
  have product := mul_product multiple (n := n)
  have whole := complement pos (n := n) (P := P)
  apply Nat.div_eq_of_lt_le
  · apply Nat.le_of_mul_le_mul_left _ pos
    omega
  · apply Nat.lt_of_mul_lt_mul_left (a := d)
    calc d * (M * n) < d * (n / d * P) + d * P := by omega
      _ = d * ((n / d + 1) * P) := by ring

include multiple pos in
/-- The quotient of the negated numerator, rounded down. -/
theorem neg_mul_div_eq (posP : 0 < P) (positive : 0 < n) (excess : 0 < e)
    (room : n * e ≤ (d - n % d) * P) : -((M * n : Nat) : Int) / P = -((n / d : Nat) : Int) - 1 := by
  have product := mul_product multiple (n := n)
  have whole := complement pos (n := n) (P := P)
  have some : 0 < n * e := Nat.mul_pos positive excess
  have low : n / d * P < M * n := by
    apply Nat.lt_of_mul_lt_mul_left (a := d)
    omega
  have high : M * n ≤ (n / d + 1) * P := by
    apply Nat.le_of_mul_le_mul_left _ pos
    calc d * (M * n) ≤ d * (n / d * P) + d * P := by omega
      _ = d * ((n / d + 1) * P) := by ring
  have low' : ((n / d : Nat) : Int) * P < ((M * n : Nat) : Int) := by exact_mod_cast low
  have high' : ((M * n : Nat) : Int) ≤ (((n / d : Nat) : Int) + 1) * P := by exact_mod_cast high
  have posP' : (0 : Int) < P := by exact_mod_cast posP
  rw [Int.ediv_eq_iff_of_pos posP']
  constructor
  · linarith
  · linarith

end Quotient

/-! ## The numerators of a range -/

/-- The largest number below `t` with the remainder `d - 1`. -/
def boundary (t d : Nat) : Nat := t - 1 - t % d

section Boundary

variable {t : Nat} (pos : 0 < d) (le : d ≤ t)

include pos le in
theorem boundary_eq : boundary t d + 1 = d * (t / d) := by
  have split := Nat.div_add_mod t d
  have once : d ≤ d * (t / d) := Nat.le_mul_of_pos_right d (Nat.div_pos le pos)
  rw [boundary]
  omega

include pos le in
theorem le_boundary : d - 1 ≤ boundary t d := by
  have once : d ≤ d * (t / d) := Nat.le_mul_of_pos_right d (Nat.div_pos le pos)
  have := boundary_eq pos le
  omega

include pos le in
/-- A numerator whose successor is a multiple is below the boundary. -/
theorem le_boundary_of_mod (below : n < t) (last : n % d = d - 1) : n ≤ boundary t d := by
  have split := Nat.div_add_mod n d
  have next : n + 1 = d * (n / d + 1) := by
    rw [Nat.mul_add, Nat.mul_one]
    omega
  have quotients : n / d + 1 ≤ t / d := by
    rw [Nat.le_div_iff_mul_le pos, Nat.mul_comm, ← next]
    exact below
  have := Nat.mul_le_mul_left d quotients
  have := boundary_eq pos le
  omega

include pos le in
/-- A numerator with another remainder is little above the boundary. -/
theorem le_two_boundary (below : n ≤ t) (other : n % d ≠ d - 1) : n ≤ 2 * boundary t d := by
  have split := Nat.div_add_mod n d
  have lt := Nat.mod_lt n pos
  have := Nat.mul_le_mul_left d (Nat.div_le_div_right (c := d) below)
  have := boundary_eq pos le
  have := le_boundary pos le
  omega

include pos le in
/-- The condition of the loop makes room for the error of every numerator below `t`, and of
`t` itself when its remainder is not `d - 1`. -/
theorem room_of_boundary (settled : boundary t d * e < P)
    (below : n < t ∨ n = t ∧ t % d ≠ d - 1) : n * e < (d - n % d) * P := by
  have lt := Nat.mod_lt n pos
  by_cases last : n % d = d - 1
  · have inside : n < t := below.resolve_right fun atEnd => atEnd.2 (atEnd.1 ▸ last)
    have one : d - n % d = 1 := by omega
    rw [one, Nat.one_mul]
    exact (Nat.mul_le_mul_right e (le_boundary_of_mod pos le inside last)).trans_lt settled
  · have twice := Nat.mul_le_mul_right e (le_two_boundary pos le (by omega) last)
    calc n * e ≤ 2 * boundary t d * e := twice
      _ < 2 * P := by rw [Nat.mul_assoc]; omega
      _ ≤ (d - n % d) * P := Nat.mul_le_mul_right P (by omega)

end Boundary

end AnonCompiler.Lib.Magic
