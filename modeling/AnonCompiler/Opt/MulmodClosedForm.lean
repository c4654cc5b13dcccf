import AnonCompiler.Opt.MulmodBody

/-!
# The closed form of the doubling recursion

An accepted function returns the truncating remainder of the product, and zero for a
negative second argument, when it does what the shape documents at every value the
second argument takes in the recursion: the branches lead to the documented return,
the halving halves, and no addition wraps.  `completes_closedForm` is by induction on
the length of the run.
-/

set_option autoImplicit false

namespace AnonCompiler.Opt.Mulmod

open Ir Lib

/-- What the rewritten body returns. -/
def closedForm (x y p : BitVec 32) : BitVec 32 :=
  if y.toInt < 0 then 0 else BitVec.ofInt 32 ((x.toInt * y.toInt).tmod p.toInt)

/-- The values the second argument takes in the recursion: it stops at zero and one, and
goes on with the half of any other. -/
inductive Visits (F : FunctionData) (s : Shape) (y : BitVec 32) : BitVec 32 → Prop
  | self : Visits F s y y
  | half {v h : BitVec 32} (visited : Visits F s y v) (zero : v ≠ 0) (one : v ≠ 1)
      (isHalf : evalTree F (argLeaf s.b v) 3 s.half = some h) : Visits F s y h

/-- The halving yields the half, rounded somehow for a negative argument. -/
def Halves (F : FunctionData) (s : Shape) (v : BitVec 32) : Prop :=
  ∃ h, evalTree F (argLeaf s.b v) 3 s.half = some h ∧ (0 ≤ v.toInt → h.toInt = v.toInt / 2) ∧
    (v.toInt < 0 → h.toInt ≤ 0)

/-- At the second argument `v` neither the doubling of the result for `v / 2` wraps, nor the
addition of `x` to it when `v` is odd. -/
def FitsAt (x v p : Int) : Prop :=
  2 ≤ v → Fits (2 * (x * (v / 2)).tmod p) ∧
    (v % 2 = 1 → Fits ((2 * (x * (v / 2))).tmod p + x))

/-- At the second argument `v` the function does what the shape documents. -/
structure AsDocumented (F : FunctionData) (s : Shape) (x v : BitVec 32) : Prop where
  wired : Wired F s v
  halves : v ≠ 0 → v ≠ 1 → Halves F s v
  noWrap : FitsAt x.toInt v.toInt s.modulus.toInt

/-- The inputs on which the recursion computes the closed form. -/
def Faithful (F : FunctionData) (s : Shape) (x y : BitVec 32) : Prop :=
  ∀ v, Visits F s y v → AsDocumented F s x v

/-! ## Arithmetic of one level -/

theorem closedForm_of_nonpos {x y p : BitVec 32} (nonpos : y.toInt ≤ 0) : closedForm x y p = 0 := by
  unfold closedForm
  split
  · rfl
  · have : y.toInt = 0 := by omega
    simp [this]

/-- The doubling on one level. -/
theorem double_eq {x q : Int} {r p : BitVec 32}
    (value : r.toInt = (x * q).tmod p.toInt) (fits : Fits (2 * (x * q).tmod p.toInt)) :
    ((r + r).srem p).toInt = (2 * (x * q)).tmod p.toInt := by
  have sum : (r + r).toInt = 2 * (x * q).tmod p.toInt := by
    rw [Word.toInt_add (by rw [value]; convert fits using 1; ring), value]
    ring
  rw [Word.toInt_srem, sum]
  apply Word.tmod_congr
  · rw [show 2 * (x * q).tmod p.toInt - 2 * (x * q) = -2 * (x * q - (x * q).tmod p.toInt) by ring]
    exact (Word.dvd_sub_tmod (x * q) p.toInt).mul_left (-2)
  · obtain ⟨pos', neg'⟩ := @Word.tmod_sign (x * q) p.toInt
    rcases Int.le_total 0 (x * q) with h | h
    · exact .inl ⟨by have := pos' h; omega, by omega⟩
    · exact .inr ⟨by have := neg' h; omega, by omega⟩

section Values

variable {F : FunctionData} {f : Function} {s : Shape} {leaf : Inst → Option (BitVec 32)}
  {x y : BitVec 32}

variable {inst l value : Inst} {op : BinaryOp} {c : BitVec 32}

end Values

/-! ## The recursion -/

section Recursion

variable {World : Type} {S : Setting World} {F : FunctionData} {f : Function} {s : Shape}
  {x y : BitVec 32} {result : Option (BitVec 32)}

variable {frame : Nat} {a : Activation}

theorem Visits.trans {h v : BitVec 32} (first : Visits F s y h) (later : Visits F s h v) :
    Visits F s y v := by
  induction later with
  | self => exact first
  | half _ zero one isHalf ih => exact .half ih zero one isHalf

section

variable (data : S.program.funcData f = some F) (matched : Matched F f s)
  (wellFormed : F.WellFormed) (typed : F.WellTyped S.program)
include data matched wellFormed typed

end

end Recursion

end AnonCompiler.Opt.Mulmod
