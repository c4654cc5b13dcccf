import AnonCompiler.Opt.InductionVariable
import AnonCompiler.Opt.IntRangeSound

/-!
# Exactness of derived induction variables

The range test is made on the affine form of every node, and only at the two ends
of the range of the base.  An affine form lies between its values at the ends, so no
node of the expression tree wraps for a base in the range.
-/

set_option autoImplicit false

namespace AnonCompiler.Opt

open Ir Lib

/-! ## Expression trees -/

/-- What a value is computed from: the base, constants and operations. -/
inductive ExprTree where
  | base
  | constant (value : BitVec 32)
  | node (op : BinaryOp) (lhs rhs : ExprTree)
deriving DecidableEq, Repr

/-- The operations on integers; a shift multiplies by a power of two. -/
def exactBinary (op : BinaryOp) (a b : Int) : Option Int :=
  match op with
  | .add => some (a + b)
  | .sub => some (a - b)
  | .mul => some (a * b)
  | .shl => if 0 ≤ b ∧ b < 32 then some (a * 2 ^ b.toNat) else none
  | _ => none

namespace ExprTree

/-- Wrapping evaluation. -/
def wrapping (x : BitVec 32) : ExprTree → Option (BitVec 32)
  | base => some x
  | constant value => some value
  | node op lhs rhs => do foldBinary op (← lhs.wrapping x) (← rhs.wrapping x)

def exact (x : Int) : ExprTree → Option Int
  | base => some x
  | constant value => some value.toInt
  | node op lhs rhs => do exactBinary op (← lhs.exact x) (← rhs.exact x)

/-- The tree and those below it. -/
def nodes : ExprTree → List ExprTree
  | base => [base]
  | constant value => [constant value]
  | node op lhs rhs => node op lhs rhs :: (lhs.nodes ++ rhs.nodes)

/-- The wrapping result is the result on integers. -/
def Agrees (tree : ExprTree) (x : BitVec 32) (result : Int) : Prop :=
  ∃ word, tree.wrapping x = some word ∧ tree.exact x.toInt = some result ∧ word.toInt = result

/-- No node wraps. -/
def NoWrap (tree : ExprTree) (x : BitVec 32) : Prop :=
  ∀ node ∈ tree.nodes, ∃ result, node.Agrees x result

end ExprTree

/-- The tree of a value, cut at the base. -/
inductive IsTree (P : Program) (F : FunctionData) (base : Inst) : Inst → ExprTree → Prop
  | base : IsTree P F base base .base
  | constant {value : Inst} {word : BitVec 32} (other : value ≠ base)
      (isConstant : integerConstant P F value = some word) : IsTree P F base value (.constant word)
  | node {value lhs rhs : Inst} {op : BinaryOp} {left right : ExprTree} (other : value ≠ base)
      (isBinary : kindIn P F value = some (.binary op lhs rhs))
      (isInt : P.typeOf F value = some .int32) (leftTree : IsTree P F base lhs left)
      (rightTree : IsTree P F base rhs right) : IsTree P F base value (.node op left right)

def ConstantInductionRange.contains (range : ConstantInductionRange) (x : BitVec 32) : Prop :=
  range.min.toInt ≤ x.toInt ∧ x.toInt ≤ range.max.toInt

instance (range : ConstantInductionRange) (x : BitVec 32) : Decidable (range.contains x) :=
  inferInstanceAs (Decidable (_ ∧ _))

/-! ## One operation -/

variable {z coefficient offset : Int} {op : BinaryOp}

theorem checkedAdd_eq_some {a b : Int} (h : checkedAdd a b = some z) : z = a + b :=
  toI64_eq_some h

theorem checkedSub_eq_some {a b : Int} (h : checkedSub a b = some z) : z = a - b :=
  toI64_eq_some h

theorem checkedMul_eq_some {a b : Int} (h : checkedMul a b = some z) : z = a * b :=
  toI64_eq_some h

/-- An operation whose result on integers fits does not wrap. -/
theorem foldBinary_exact {a b : BitVec 32} (exact : exactBinary op a.toInt b.toInt = some z)
    (fits : Fits z) : ∃ word, foldBinary op a b = some word ∧ word.toInt = z := by
  cases op with
  | add =>
    cases exact
    exact ⟨_, rfl, Word.toInt_add fits⟩
  | sub =>
    cases exact
    exact ⟨_, rfl, Word.toInt_sub fits⟩
  | mul =>
    cases exact
    exact ⟨_, rfl, Word.toInt_mul fits⟩
  | shl =>
    simp only [exactBinary] at exact
    split at exact
    · next amount =>
        cases exact
        have count : b.toNat % 32 = b.toInt.toNat := by
          rw [toNat_of_nonneg amount.1]
          omega
        refine ⟨a <<< (b.toNat % 32), rfl, ?_⟩
        rw [count, Word.shiftLeft_eq_ofInt, Word.toInt_ofInt fits]
    · cases exact
  | _ => cases exact

/-- The affine form of an operation is the operation on the affine forms. -/
theorem combine_exact {lhsCoefficient lhsOffset rhsCoefficient rhsOffset : Int}
    (h : combine op lhsCoefficient lhsOffset rhsCoefficient rhsOffset = some (coefficient, offset))
    (x : Int) :
    exactBinary op (lhsCoefficient * x + lhsOffset) (rhsCoefficient * x + rhsOffset) =
      some (coefficient * x + offset) := by
  cases op with
  | add =>
    simp only [combine, Option.bind_eq_bind, Option.bind_eq_some_iff, Option.some.injEq,
      Prod.mk.injEq] at h
    obtain ⟨_, first, _, second, rfl, rfl⟩ := h
    rw [checkedAdd_eq_some first, checkedAdd_eq_some second, exactBinary]
    congr 1
    ring
  | sub =>
    simp only [combine, Option.bind_eq_bind, Option.bind_eq_some_iff, Option.some.injEq,
      Prod.mk.injEq] at h
    obtain ⟨_, first, _, second, rfl, rfl⟩ := h
    rw [checkedSub_eq_some first, checkedSub_eq_some second, exactBinary]
    congr 1
    ring
  | mul =>
    simp only [combine] at h
    split at h
    · next constant =>
        simp only [Option.bind_eq_bind, Option.bind_eq_some_iff, Option.some.injEq,
          Prod.mk.injEq] at h
        obtain ⟨_, first, _, second, rfl, rfl⟩ := h
        rw [checkedMul_eq_some first, checkedMul_eq_some second, exactBinary, constant]
        congr 1
        ring
    · split at h
      · next constant =>
          simp only [Option.bind_eq_bind, Option.bind_eq_some_iff, Option.some.injEq,
            Prod.mk.injEq] at h
          obtain ⟨_, first, _, second, rfl, rfl⟩ := h
          rw [checkedMul_eq_some first, checkedMul_eq_some second, exactBinary, constant]
          congr 1
          ring
      · cases h
  | shl =>
    simp only [combine] at h
    split at h
    · next amount =>
        obtain ⟨constant, nonneg, small⟩ := amount
        simp only [Option.bind_eq_bind, Option.bind_eq_some_iff, Option.some.injEq,
          Prod.mk.injEq] at h
        obtain ⟨_, first, _, second, rfl, rfl⟩ := h
        rw [checkedMul_eq_some first, checkedMul_eq_some second, exactBinary, constant,
          Int.zero_mul, Int.zero_add, if_pos ⟨nonneg, small⟩]
        congr 1
        ring
    · cases h
  | _ => cases h

/-- The test at the two ends covers what lies between. -/
theorem rangeFits_sound {range : ConstantInductionRange}
    (tested : rangeFits coefficient offset range) {x : BitVec 32} (within : range.contains x) :
    Fits (coefficient * x.toInt + offset) := by
  unfold rangeFits at tested
  split at tested
  · next atMin atMax first second =>
      obtain ⟨product, isProduct, isMin⟩ := Option.bind_eq_some_iff.mp first
      obtain ⟨product', isProduct', isMax⟩ := Option.bind_eq_some_iff.mp second
      rw [checkedMul_eq_some isProduct] at isMin
      rw [checkedMul_eq_some isProduct'] at isMax
      have low := checkedAdd_eq_some isMin
      have high := checkedAdd_eq_some isMax
      have between := mul_between coefficient within.1 within.2
      simp only [Int.mul_comm _ coefficient] at between
      simp only [decide_eq_true_eq] at tested
      unfold Fits
      omega
  · cases tested

/-! ## The whole tree -/

section Tree

variable {P : Program} {F : FunctionData} {looop : Loop} {base value : Inst}
  {range : ConstantInductionRange}

variable {fuel : Nat} {coefficient offset : Int} {chain : List Inst}

/-- A binary operation on two accepted values is accepted with their combination. -/
theorem classify_cases
    (found : classify P F looop base range (fuel + 1) value = some (coefficient, offset, chain)) :
    (value = base ∧ coefficient = 1 ∧ offset = 0) ∨
    (value ≠ base ∧ ∃ word : BitVec 32, integerConstant P F value = some word ∧ coefficient = 0 ∧
      offset = word.toInt) ∨
    (value ≠ base ∧ P.typeOf F value = some .int32 ∧
      ∃ op lhs rhs lhsCoefficient lhsOffset lhsChain rhsCoefficient rhsOffset rhsChain,
        kindIn P F value = some (.binary op lhs rhs) ∧
        classify P F looop base range fuel lhs = some (lhsCoefficient, lhsOffset, lhsChain) ∧
        classify P F looop base range fuel rhs = some (rhsCoefficient, rhsOffset, rhsChain) ∧
        combine op lhsCoefficient lhsOffset rhsCoefficient rhsOffset =
          some (coefficient, offset) ∧
        rangeFits coefficient offset range) := by
  rw [classify] at found
  split at found
  · next same =>
      cases found
      exact .inl ⟨same, rfl, rfl⟩
  · next other =>
      refine .inr ?_
      split at found
      · next word isConstant =>
          cases found
          exact .inl ⟨other, word, isConstant, rfl, rfl⟩
      · refine .inr ?_
        split at found
        · next placed =>
            split at found
            · next op lhs rhs isBinary =>
                obtain ⟨⟨lc, lo, lchain⟩, isLeft, found⟩ := Option.bind_eq_some_iff.mp found
                obtain ⟨⟨rc, ro, rchain⟩, isRight, found⟩ := Option.bind_eq_some_iff.mp found
                obtain ⟨⟨c, o⟩, combined, found⟩ := Option.bind_eq_some_iff.mp found
                simp only at combined found
                split at found
                · next tested =>
                    cases found
                    exact ⟨other, placed.2, op, lhs, rhs, lc, lo, lchain, rc, ro, rchain, isBinary,
                      isLeft, isRight, combined, tested⟩
                · cases found
            · cases found
        · cases found

/-- An accepted value is the affine form of the base at every node of its tree. -/
theorem classify_exact
    (found : classify P F looop base range fuel value = some (coefficient, offset, chain)) :
    ∃ tree, IsTree P F base value tree ∧
      ∀ x, range.contains x →
        tree.NoWrap x ∧ tree.Agrees x (coefficient * x.toInt + offset) := by
  induction fuel generalizing value coefficient offset chain with
  | zero => cases found
  | succ fuel ih =>
    obtain ⟨rfl, rfl, rfl⟩ | ⟨other, word, isConstant, rfl, rfl⟩ | ⟨other, isInt, op, lhs, rhs,
      lhsCoefficient, lhsOffset, _, rhsCoefficient, rhsOffset, _, isBinary, isLeft, isRight,
      combined, tested⟩ := classify_cases found
    · refine ⟨.base, .base, fun x _ => ?_⟩
      have agrees : ExprTree.base.Agrees x (1 * x.toInt + 0) :=
        ⟨x, rfl, congrArg some (by ring), by ring⟩
      refine ⟨?_, agrees⟩
      intro node member
      rw [List.mem_singleton.mp member]
      exact ⟨_, agrees⟩
    · refine ⟨.constant word, .constant other isConstant, fun x _ => ?_⟩
      have agrees : (ExprTree.constant word).Agrees x (0 * x.toInt + word.toInt) :=
        ⟨word, rfl, congrArg some (by ring), by ring⟩
      refine ⟨?_, agrees⟩
      intro node member
      rw [List.mem_singleton.mp member]
      exact ⟨_, agrees⟩
    · obtain ⟨left, leftTree, leftExact⟩ := ih isLeft
      obtain ⟨right, rightTree, rightExact⟩ := ih isRight
      refine ⟨.node op left right, .node other isBinary isInt leftTree rightTree,
        fun x within => ?_⟩
      obtain ⟨leftNoWrap, leftWord, leftWraps, leftIs, leftValue⟩ := leftExact x within
      obtain ⟨rightNoWrap, rightWord, rightWraps, rightIs, rightValue⟩ := rightExact x within
      have result := combine_exact combined x.toInt
      have fits := rangeFits_sound tested within
      have agrees : (ExprTree.node op left right).Agrees x (coefficient * x.toInt + offset) := by
        rw [← leftValue, ← rightValue] at result
        obtain ⟨word, folded, isWord⟩ := foldBinary_exact result fits
        rw [leftValue, rightValue] at result
        refine ⟨word, ?_, ?_, isWord⟩
        · simp only [ExprTree.wrapping, leftWraps, rightWraps]
          exact folded
        · simp only [ExprTree.exact, leftIs, rightIs]
          exact result
      refine ⟨?_, agrees⟩
      intro node member
      rw [ExprTree.nodes, List.mem_cons, List.mem_append] at member
      obtain rfl | inLeft | inRight := member
      · exact ⟨_, agrees⟩
      · exact leftNoWrap node inLeft
      · exact rightNoWrap node inRight

theorem toI32_isSome {z : Int} (h : toI32 z ≠ none) : Fits z := by
  unfold toI32 at h
  split at h
  · assumption
  · exact absurd rfl h

/-- The checked operations succeed when the result fits. -/
theorem evaluate_eq {d : DerivedInductionVariable} {x : BitVec 32}
    (coefficient : Fits d.coefficient) (fits : Fits (d.coefficient * x.toInt + d.offset)) :
    d.evaluate x = some (BitVec.ofInt 32 (d.coefficient * x.toInt + d.offset)) := by
  have bounds := Word.fits x
  have product : checkedMul x.toInt d.coefficient = some (x.toInt * d.coefficient) := by
    refine if_pos ?_
    unfold Fits at *
    have below := mul_between d.coefficient bounds.1 (Int.le_sub_one_of_lt bounds.2)
    omega
  have sum : checkedAdd (x.toInt * d.coefficient) d.offset =
      some (d.coefficient * x.toInt + d.offset) := by
    unfold checkedAdd toI64
    rw [Int.mul_comm x.toInt]
    refine if_pos ?_
    unfold Fits at fits
    omega
  unfold DerivedInductionVariable.evaluate
  rw [product]
  simp only [Option.bind_eq_bind, Option.bind_some]
  rw [sum]
  exact if_pos fits

/-- An accepted value has a tree whose wrapping evaluation, at every base in the range,
is the affine form on integers, without a node that wraps. -/
theorem classifyDerivedInductionVariable_exact {fuel : Nat} {d : DerivedInductionVariable}
    (accepted : classifyDerivedInductionVariable P F looop base value range fuel = some d) :
    ∃ tree, IsTree P F base value tree ∧
      ∀ x, range.contains x →
        tree.NoWrap x ∧
        ∃ word, tree.wrapping x = some word ∧ word.toInt = d.coefficient * x.toInt + d.offset ∧
          d.evaluate x = some word := by
  obtain ⟨⟨coefficient, offset, chain⟩, found, built⟩ := Option.bind_eq_some_iff.mp accepted
  simp only at built
  split at built
  · cases built
  · next checks =>
      push Not at checks
      obtain ⟨-, -, fitsCoefficient, -⟩ := checks
      cases built
      obtain ⟨tree, isTree, exact⟩ := classify_exact found
      refine ⟨tree, isTree, fun x within => ?_⟩
      obtain ⟨noWrap, word, wraps, -, isWord⟩ := exact x within
      refine ⟨noWrap, word, wraps, isWord, ?_⟩
      have fits : Fits (coefficient * x.toInt + offset) := isWord ▸ Word.fits word
      rw [evaluate_eq (toI32_isSome fitsCoefficient) fits, ← isWord, BitVec.ofInt_toInt]

end Tree

/-- A loop on block 2 that computes `(3 * i + 5) << 2` from its parameter. -/
def scaledIndex : Ir.Listing where
  retTy := .unit
  name := "f"
  paramsTy := []
  layout := [(1, [2]), (2, [7, 8, 9, 10]), (3, [11])]
  insts :=
    [(1, ⟨.int32, .integer 0⟩), (2, ⟨.unit, .jump 2 [1]⟩), (3, ⟨.int32, .blockArgRef 0⟩),
      (4, ⟨.int32, .integer 3⟩), (5, ⟨.int32, .integer 5⟩), (6, ⟨.int32, .integer 2⟩),
      (7, ⟨.int32, .binary .mul 3 4⟩), (8, ⟨.int32, .binary .add 7 5⟩),
      (9, ⟨.int32, .binary .shl 8 6⟩), (10, ⟨.unit, .branch 9 2 [3] 3 []⟩),
        (11, ⟨.unit, .ret none⟩)]
  nextInst := 12
  blockParams := [(2, [3])]
  nextBlock := 4

def scaledIndexProgram : Program where
  funcs := [scaledIndex.toFunctionData]
  functionLayout := [0]
  globals := fun _ => none
  globalLayout := []
  mainFunction := none

theorem classifyDerivedInductionVariable_exact_scaledIndex :
    ∃ tree, IsTree scaledIndexProgram scaledIndex.toFunctionData 3 9 tree ∧
      ∀ x, (⟨0, 9⟩ : ConstantInductionRange).contains x →
        tree.NoWrap x ∧
        ∃ word, tree.wrapping x = some word ∧ word.toInt = 12 * x.toInt + 20 ∧
          DerivedInductionVariable.evaluate ⟨9, 3, 12, 20, [7, 8, 9]⟩ x = some word := by
  have accepted :
      classifyDerivedInductionVariable scaledIndexProgram scaledIndex.toFunctionData
        ⟨2, [2], [2]⟩ 3 9 ⟨0, 9⟩ 9 = some ⟨9, 3, 12, 20, [7, 8, 9]⟩ := by
    decide
  exact classifyDerivedInductionVariable_exact accepted

end AnonCompiler.Opt
