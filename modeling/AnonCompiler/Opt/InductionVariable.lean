import AnonCompiler.Lib.Word
import AnonCompiler.Opt.Gvn
import AnonCompiler.Opt.LoopAnalysis

/-!
# Induction variables

`opt/analysis_passes/induction_variable.rs`.  A parameter of a loop header is a
basic induction variable when every edge from inside the loop passes on the
parameter plus or minus one invariant step; a value computed from it by sums,
differences, products and shifts is a derived one when it stays in range.  Numbers
of the source that are `i64` are integers here, and its checked operations fail
outside of the range of that type.
-/

set_option autoImplicit false

namespace AnonCompiler.Opt

open Ir Lib

/-! ## Checked arithmetic -/

def toI64 (z : Int) : Option Int := if -2 ^ 63 ≤ z ∧ z < 2 ^ 63 then some z else none

/-- `i32::try_from`. -/
def toI32 (z : Int) : Option (BitVec 32) := if Fits z then some (BitVec.ofInt 32 z) else none

def checkedAdd (a b : Int) : Option Int := toI64 (a + b)

def checkedSub (a b : Int) : Option Int := toI64 (a - b)

def checkedMul (a b : Int) : Option Int := toI64 (a * b)

theorem toI64_eq_some {a z : Int} (h : toI64 a = some z) : z = a := by
  unfold toI64 at h
  split at h <;> cases h
  rfl

/-! ## What the analysis reads of an instruction -/

def integerConstant (P : Program) (F : FunctionData) (value : Inst) : Option (BitVec 32) :=
  match kindIn P F value with
  | some (.integer value) => some value
  | _ => none

/-- The instruction is placed in the loop. -/
def Loop.places (looop : Loop) (F : FunctionData) (value : Inst) : Bool :=
  match F.parentBlock value with
  | some block => looop.contains block
  | none => false

/-! ## Derived induction variables -/

structure ConstantInductionRange where
  min : BitVec 32
  max : BitVec 32
deriving DecidableEq, Repr

structure DerivedInductionVariable where
  value : Inst
  base : Inst
  coefficient : Int
  offset : Int
  chain : List Inst
deriving DecidableEq, Repr

def DerivedInductionVariable.evaluate (d : DerivedInductionVariable) (baseValue : BitVec 32) :
    Option (BitVec 32) := do
  let product ← checkedMul baseValue.toInt d.coefficient
  let sum ← checkedAdd product d.offset
  toI32 sum

def rangeFits (coefficient offset : Int) (range : ConstantInductionRange) : Bool :=
  match (checkedMul coefficient range.min.toInt).bind fun value => checkedAdd value offset,
    (checkedMul coefficient range.max.toInt).bind fun value => checkedAdd value offset with
  | some atMin, some atMax => -2 ^ 31 ≤ Min.min atMin atMax ∧ Max.max atMin atMax ≤ 2 ^ 31 - 1
  | _, _ => false

/-- The coefficient and the offset of an operation on two affine values. -/
def combine (op : BinaryOp) (lhsCoefficient lhsOffset rhsCoefficient rhsOffset : Int) :
    Option (Int × Int) :=
  match op with
  | .add => do
      let coefficient ← checkedAdd lhsCoefficient rhsCoefficient
      let offset ← checkedAdd lhsOffset rhsOffset
      some (coefficient, offset)
  | .sub => do
      let coefficient ← checkedSub lhsCoefficient rhsCoefficient
      let offset ← checkedSub lhsOffset rhsOffset
      some (coefficient, offset)
  | .mul =>
    if lhsCoefficient = 0 then do
      let coefficient ← checkedMul rhsCoefficient lhsOffset
      let offset ← checkedMul rhsOffset lhsOffset
      some (coefficient, offset)
    else if rhsCoefficient = 0 then do
      let coefficient ← checkedMul lhsCoefficient rhsOffset
      let offset ← checkedMul lhsOffset rhsOffset
      some (coefficient, offset)
    else none
  | .shl =>
    if rhsCoefficient = 0 ∧ 0 ≤ rhsOffset ∧ rhsOffset < 32 then do
      let coefficient ← checkedMul lhsCoefficient (2 ^ rhsOffset.toNat)
      let offset ← checkedMul lhsOffset (2 ^ rhsOffset.toNat)
      some (coefficient, offset)
    else none
  | _ => none

/-- The coefficient, the offset and the instructions of an affine value. -/
def classify (P : Program) (F : FunctionData) (looop : Loop) (base : Inst)
    (range : ConstantInductionRange) : Nat → Inst → Option (Int × Int × List Inst)
  | 0, _ => none
  | fuel + 1, value =>
    if value = base then some (1, 0, [])
    else
      match integerConstant P F value with
      | some constant => some (0, constant.toInt, [])
      | none =>
        if looop.places F value ∧ P.typeOf F value = some .int32 then
          match kindIn P F value with
          | some (.binary op lhs rhs) => do
              let (lhsCoefficient, lhsOffset, lhsChain) ←
                classify P F looop base range fuel lhs
              let (rhsCoefficient, rhsOffset, rhsChain) ←
                classify P F looop base range fuel rhs
              let (coefficient, offset) ←
                combine op lhsCoefficient lhsOffset rhsCoefficient rhsOffset
              if rangeFits coefficient offset range then
                let chain := lhsChain ++ rhsChain.filter (· ∉ lhsChain)
                some (coefficient, offset, if value ∈ chain then chain else chain ++ [value])
              else none
          | _ => none
        else none

def classifyDerivedInductionVariable (P : Program) (F : FunctionData) (looop : Loop)
    (base value : Inst) (range : ConstantInductionRange) (fuel : Nat) :
    Option DerivedInductionVariable := do
  let (coefficient, offset, chain) ← classify P F looop base range fuel value
  if coefficient = 0 ∨ chain = [] ∨ toI32 coefficient = none ∨ toI32 offset = none then none
  else some ⟨value, base, coefficient, offset, chain⟩

end AnonCompiler.Opt
