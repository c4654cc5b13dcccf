import Mathlib.Tactic

/-!
# Runs of ones, rotations and repetitions

Words are compared bit by bit.  A run of ones at the low end is rotated to the right inside
an element, and the element is repeated through a word.  The bit at position `i` of the
result is set if `i`, moved by the rotation, falls into the run.
-/

set_option autoImplicit false

namespace AnonCompiler.Lib.BitPatterns

/-- A run of ones at the low end. -/
def lowOnes (w count : Nat) : BitVec w := (1#w <<< count) - 1#w

variable {w count width e rotate : Nat}

theorem getLsbD_lowOnes (small : count < w) (i : Nat) :
    (lowOnes w count).getLsbD i = decide (i < count) := by
  have power : 2 ^ count < 2 ^ w := Nat.pow_lt_pow_right (by omega) small
  have positive : 0 < 2 ^ count := Nat.two_pow_pos count
  have one : (1#w).toNat = 1 := by
    rw [BitVec.toNat_ofNat]
    exact Nat.mod_eq_of_lt (by omega)
  have shifted : (1#w <<< count).toNat = 2 ^ count := by
    rw [BitVec.toNat_shiftLeft, one, Nat.one_shiftLeft, Nat.mod_eq_of_lt power]
  have whole : (lowOnes w count).toNat = 2 ^ count - 1 := by
    rw [lowOnes, BitVec.toNat_sub_of_le]
    · rw [shifted, one]
    · rw [BitVec.le_def, shifted, one]
      exact positive
  rw [BitVec.getLsbD, whole, Nat.testBit_two_pow_sub_one]

/-- The ones of the lowest `width` bits. -/
def lowMask (w width : Nat) : BitVec w := if width = w then BitVec.allOnes w else lowOnes w width

theorem getLsbD_lowMask (fits : width ≤ w) (i : Nat) :
    (lowMask w width).getLsbD i = decide (i < width) := by
  unfold lowMask
  split
  · next whole =>
      rw [BitVec.getLsbD_allOnes, whole]
  · next differ => exact getLsbD_lowOnes (by omega) i

/-- The low `e` bits, rotated to the right. -/
def rotateElement {w : Nat} (e : Nat) (pattern : BitVec w) (rotate : Nat) : BitVec w :=
  if rotate = 0 then pattern
  else ((pattern >>> rotate) ||| (pattern <<< (e - rotate))) &&& lowMask w e

theorem getLsbD_rotateElement (fits : e ≤ w) (run : count < e) (small : rotate < e) (i : Nat) :
    (rotateElement e (lowOnes w count) rotate).getLsbD i =
      (decide (i < e) && decide ((i + rotate) % e < count)) := by
  have inWord : count < w := by omega
  unfold rotateElement
  split
  · next unmoved =>
      subst unmoved
      rw [getLsbD_lowOnes inWord, Nat.add_zero]
      by_cases inside : i < e
      · rw [Nat.mod_eq_of_lt inside, decide_eq_true inside, Bool.true_and]
      · have beyond : ¬ i < count := by omega
        rw [decide_eq_false inside, decide_eq_false beyond, Bool.false_and]
  · next moved =>
      rw [BitVec.getLsbD_and, BitVec.getLsbD_or, BitVec.getLsbD_ushiftRight,
        BitVec.getLsbD_shiftLeft, getLsbD_lowMask fits, getLsbD_lowOnes inWord,
        getLsbD_lowOnes inWord, Bool.and_comm]
      by_cases inside : i < e
      · rw [decide_eq_true inside, Bool.true_and, Bool.true_and]
        have inWord' : i < w := by omega
        rw [decide_eq_true inWord', Bool.true_and]
        by_cases wraps : i + rotate < e
        · have before : i < e - rotate := by omega
          rw [Nat.mod_eq_of_lt wraps, decide_eq_true before, Nat.add_comm]
          simp
        · have after : ¬ i < e - rotate := by omega
          have turned : (i + rotate) % e = i - (e - rotate) := by
            rw [Nat.mod_eq_sub_mod (by omega), Nat.mod_eq_of_lt (by omega)]
            omega
          have beyond : ¬ rotate + i < count := by omega
          rw [turned, decide_eq_false after, decide_eq_false beyond]
          simp
      · rw [decide_eq_false inside, Bool.false_and, Bool.false_and]

/-- The positions a step apart below a bound. -/
def stepBy (stop step : Nat) : List Nat := (List.range ((stop + step - 1) / step)).map (· * step)

theorem mem_stepBy {stop step x : Nat} (positive : 0 < step) :
    x ∈ stepBy stop step ↔ x < stop ∧ step ∣ x := by
  unfold stepBy
  simp only [List.mem_map, List.mem_range, Nat.lt_div_iff_mul_lt positive]
  constructor
  · rintro ⟨k, below, rfl⟩
    have comm := Nat.mul_comm k step
    exact ⟨by omega, Nat.dvd_mul_left step k⟩
  · rintro ⟨below, k, rfl⟩
    have comm := Nat.mul_comm k step
    exact ⟨k, by omega, comm⟩

/-- The element at every step below the width. -/
def repeated {w : Nat} (width e : Nat) (element : BitVec w) : BitVec w :=
  (stepBy width e).foldl (fun word offset => word ||| (element <<< offset)) 0#w

theorem getLsbD_foldl_or (element : BitVec w) (offsets : List Nat) (start : BitVec w) (i : Nat) :
    (offsets.foldl (fun word offset => word ||| (element <<< offset)) start).getLsbD i =
      (start.getLsbD i || offsets.any fun offset => (element <<< offset).getLsbD i) := by
  induction offsets generalizing start with
  | nil => simp
  | cons offset offsets ih =>
    rw [List.foldl_cons, ih, BitVec.getLsbD_or, List.any_cons, Bool.or_assoc]

/-- A bit of the repetition is a bit of the element. -/
theorem getLsbD_repeated {element : BitVec w} (positive : 0 < e) (whole : e ∣ width)
    (fits : width ≤ w) (inside : ∀ i, element.getLsbD i = true → i < e) (i : Nat) :
    (repeated width e element).getLsbD i = (decide (i < width) && element.getLsbD (i % e)) := by
  have split : i % e + e * (i / e) = i := Nat.mod_add_div i e
  have small : i % e < e := Nat.mod_lt i positive
  rw [repeated, getLsbD_foldl_or, BitVec.getLsbD_zero, Bool.false_or, Bool.eq_iff_iff]
  simp only [List.any_eq_true, mem_stepBy positive, BitVec.getLsbD_shiftLeft, Bool.and_eq_true,
    decide_eq_true_eq, Bool.not_eq_true', decide_eq_false_iff_not, Nat.not_lt]
  constructor
  · rintro ⟨offset, ⟨below, k, rfl⟩, ⟨-, after⟩, isSet⟩
    have near := inside _ isSet
    have quotient : i / e = k := by
      rw [Nat.div_eq_iff positive]
      rw [Nat.mul_comm] at after near
      constructor
      · omega
      · omega
    obtain ⟨parts, rfl⟩ := whole
    have room : k + 1 ≤ parts := Nat.lt_of_mul_lt_mul_left below
    have bound : e * (k + 1) ≤ e * parts := Nat.mul_le_mul_left e room
    rw [Nat.mul_add, Nat.mul_one] at bound
    have remainder : i - e * k = i % e := by
      rw [← quotient]
      omega
    rw [remainder] at isSet
    exact ⟨by omega, isSet⟩
  · rintro ⟨below, isSet⟩
    refine ⟨e * (i / e), ⟨by omega, Nat.dvd_mul_right e _⟩, ⟨by omega, by omega⟩, ?_⟩
    have remainder : i - e * (i / e) = i % e := by omega
    rw [remainder]
    exact isSet

/-- The bits of a repeated rotated run. -/
theorem getLsbD_pattern (whole : e ∣ width) (fits : width ≤ w) (nonzero : 0 < width)
    (run : count < e) (small : rotate < e) (i : Nat) :
    (repeated width e (rotateElement e (lowOnes w count) rotate)).getLsbD i =
      (decide (i < width) && decide ((i + rotate) % e < count)) := by
  have positive : 0 < e := by omega
  have inWord : e ≤ w := Nat.le_trans (Nat.le_of_dvd nonzero whole) fits
  have bits := getLsbD_rotateElement inWord run small
  rw [getLsbD_repeated positive whole fits, bits, decide_eq_true (Nat.mod_lt i positive),
    Bool.true_and, Nat.mod_add_mod]
  intro j isSet
  rw [bits, Bool.and_eq_true, decide_eq_true_eq] at isSet
  exact isSet.1

end AnonCompiler.Lib.BitPatterns
