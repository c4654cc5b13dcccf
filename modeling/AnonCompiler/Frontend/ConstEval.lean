import AnonCompiler.Frontend.ConstExp

/-!
# The value of a constant expression

The levels of precedence are forgotten, and both translations become recursions over one
tree.  On a constant expression both compute what evaluating every operand gives
(`Tree.fold`).  The language evaluates the right operand of `&&` and `||` only where the
left one does not decide, so the two agree as long as nothing fails in an operand that is
passed over.
-/

set_option autoImplicit false

namespace AnonCompiler.Frontend.AstGen

open AnonCompiler.Ir (BasicBlock BinaryOp Layout truth)

/-! ## Trees -/

inductive Tree where
  | number (num : BitVec 32)
  | name (ident : Ident)
  | unary (op : UnaryOp) (arg : Tree)
  | binary (op : BinaryOp) (lhs rhs : Tree)
  | and (lhs rhs : Tree)
  | or (lhs rhs : Tree)

mutual
def Exp.tree : Exp → Tree
  | .lOrExp e => e.tree

def LOrExp.tree : LOrExp → Tree
  | .lAndExp e => e.tree
  | .comp lhs rhs => .or lhs.tree rhs.tree

def LAndExp.tree : LAndExp → Tree
  | .eqExp e => e.tree
  | .comp lhs rhs => .and lhs.tree rhs.tree

def EqExp.tree : EqExp → Tree
  | .relExp e => e.tree
  | .comp lhs op rhs => .binary op lhs.tree rhs.tree

def RelExp.tree : RelExp → Tree
  | .addExp e => e.tree
  | .comp lhs op rhs => .binary op lhs.tree rhs.tree

def AddExp.tree : AddExp → Tree
  | .mulExp e => e.tree
  | .comp lhs op rhs => .binary op lhs.tree rhs.tree

def MulExp.tree : MulExp → Tree
  | .unaryExp e => e.tree
  | .comp lhs op rhs => .binary op lhs.tree rhs.tree

def UnaryExp.tree : UnaryExp → Tree
  | .primaryExp e => e.tree
  | .unary op e => .unary op e.tree

def PrimaryExp.tree : PrimaryExp → Tree
  | .exp e => e.tree
  | .lVal ident => .name ident
  | .number num => .number num
end

/-! ## The language's own evaluation -/

/-- The operators of the language, on the integers. -/
def cBinary (op : BinaryOp) (a b : Int) : Option Int :=
  match op with
  | .notEq => some (if a ≠ b then 1 else 0)
  | .eq => some (if a = b then 1 else 0)
  | .gt => some (if b < a then 1 else 0)
  | .lt => some (if a < b then 1 else 0)
  | .ge => some (if b ≤ a then 1 else 0)
  | .le => some (if a ≤ b then 1 else 0)
  | .add => some (a + b)
  | .sub => some (a - b)
  | .mul => some (a * b)
  | .div => if b = 0 then none else some (a.tdiv b)
  | .rem => if b = 0 then none else some (a.tmod b)
  | _ => none

def cUnary (op : UnaryOp) (a : Int) : Int :=
  match op with
  | .add => a
  | .minus => -a
  | .negation => if a = 0 then 1 else 0

/-- The binary operators a program can contain. -/
def InLanguage (op : BinaryOp) : Prop :=
  op ∈ [.notEq, .eq, .gt, .lt, .ge, .le, .add, .sub, .mul, .div, .rem]

instance (op : BinaryOp) : Decidable (InLanguage op) := inferInstanceAs (Decidable (op ∈ _))

namespace Tree

section Value

variable (names : Ident → Option (BitVec 32))

/-- The value, with results that wrap; the right operand of `&&` and `||` is evaluated only where
the left one does not decide. -/
def eval : Tree → Option (BitVec 32)
  | number num => some num
  | name ident => names ident
  | unary op arg => (eval arg).map fun a => BitVec.ofInt 32 (cUnary op a.toInt)
  | binary op lhs rhs => do
      let a ← eval lhs
      let b ← eval rhs
      (cBinary op a.toInt b.toInt).map (BitVec.ofInt 32)
  | and lhs rhs => do
      let a ← eval lhs
      if a = 0 then some 0 else (eval rhs).map fun b => truth (b != 0)
  | or lhs rhs => do
      let a ← eval lhs
      if a = 0 then (eval rhs).map fun b => truth (b != 0) else some 1

/-- Every name stands for a constant, and every operator belongs to the language. -/
def IsConstant : Tree → Prop
  | number _ => True
  | name ident => (names ident).isSome
  | unary _ arg => IsConstant arg
  | binary op lhs rhs => InLanguage op ∧ IsConstant lhs ∧ IsConstant rhs
  | and lhs rhs | or lhs rhs => IsConstant lhs ∧ IsConstant rhs

/-- No operation fails, also none in an operand that is passed over: no division is by zero, and in
a build with overflow checks no minus stands before `i32::MIN`. -/
def NothingFails (overflowChecks : Bool) : Tree → Prop
  | number _ | name _ => True
  | unary op arg => NothingFails overflowChecks arg ∧
      (op = .minus → overflowChecks → eval names arg ≠ some (BitVec.intMin 32))
  | binary op lhs rhs => NothingFails overflowChecks lhs ∧ NothingFails overflowChecks rhs ∧
      (op.divides → eval names rhs ≠ some 0)
  | and lhs rhs | or lhs rhs =>
    NothingFails overflowChecks lhs ∧ NothingFails overflowChecks rhs

/-- The value, with every operand evaluated and the source's folding of one operator. -/
def fold (overflowChecks : Bool) : Tree → Option (BitVec 32)
  | number num => some num
  | name ident => names ident
  | unary op arg => do op.fold overflowChecks (← fold overflowChecks arg)
  | binary op lhs rhs => do
      evalI32Binary op (← fold overflowChecks lhs) (← fold overflowChecks rhs)
  | and lhs rhs => do
      let a ← fold overflowChecks lhs
      let b ← fold overflowChecks rhs
      some (truth (a != 0 && b != 0))
  | or lhs rhs => do
      let a ← fold overflowChecks lhs
      let b ← fold overflowChecks rhs
      some (truth (a != 0 || b != 0))

end Value

end Tree

section Folding

variable {a b v : BitVec 32} {overflowChecks : Bool} {names : Ident → Option (BitVec 32)}

theorem toInt_eq_zero : a.toInt = 0 ↔ a = 0 :=
  ⟨fun isZero => BitVec.toInt_inj.mp isZero, fun isZero => by rw [isZero]; rfl⟩

theorem ofInt_flag (P : Prop) [Decidable P] :
    BitVec.ofInt 32 (if P then 1 else 0) = truth (decide P) := by
  by_cases h : P <;> simp [h, truth]

/-- Folding an operator of the language gives its value, or fails where there is none. -/
theorem evalI32Binary_eq {op : BinaryOp} (inLanguage : InLanguage op) :
    evalI32Binary op a b = (cBinary op a.toInt b.toInt).map (BitVec.ofInt 32) := by
  simp only [InLanguage, List.mem_cons, List.not_mem_nil, or_false] at inLanguage
  rcases inLanguage with rfl | rfl | rfl | rfl | rfl | rfl | rfl | rfl | rfl | rfl | rfl
  · simp only [evalI32Binary, cBinary, Option.map_some, ofInt_flag, ne_eq, BitVec.toInt_inj]
    rw [decide_not, ← beq_eq_decide]
    rfl
  · simp only [evalI32Binary, cBinary, Option.map_some, ofInt_flag, BitVec.toInt_inj]
    rw [← beq_eq_decide]
  · simp only [evalI32Binary, cBinary, Option.map_some, ofInt_flag, BitVec.slt]
  · simp only [evalI32Binary, cBinary, Option.map_some, ofInt_flag, BitVec.slt]
  · simp only [evalI32Binary, cBinary, Option.map_some, ofInt_flag, BitVec.sle]
  · simp only [evalI32Binary, cBinary, Option.map_some, ofInt_flag, BitVec.sle]
  · simp [evalI32Binary, cBinary, BitVec.ofInt_add]
  · simp only [evalI32Binary, cBinary, Option.map_some, Option.some.injEq]
    rw [← BitVec.toInt_inj, BitVec.toInt_sub, BitVec.toInt_ofInt]
  · simp only [evalI32Binary, cBinary, Option.map_some, Option.some.injEq]
    rw [← BitVec.toInt_inj, BitVec.toInt_mul, BitVec.toInt_ofInt]
  · simp only [evalI32Binary, cBinary, toInt_eq_zero]
    split
    · rfl
    · rw [Option.map_some, Option.some.injEq, ← BitVec.toInt_inj, BitVec.toInt_sdiv,
        BitVec.toInt_ofInt]
  · simp only [evalI32Binary, cBinary, toInt_eq_zero]
    split
    · rfl
    · rw [Option.map_some, Option.some.injEq, ← BitVec.toInt_srem, BitVec.ofInt_toInt]

theorem cBinary_isSome {op : BinaryOp} (inLanguage : InLanguage op) :
    (cBinary op a.toInt b.toInt).isSome ↔ (op.divides → b ≠ 0) := by
  simp only [InLanguage, List.mem_cons, List.not_mem_nil, or_false] at inLanguage
  rcases inLanguage with rfl | rfl | rfl | rfl | rfl | rfl | rfl | rfl | rfl | rfl | rfl <;>
    simp [cBinary, BinaryOp.divides, toInt_eq_zero]

theorem UnaryOp.fold_eq_some_iff {op : UnaryOp} : op.fold overflowChecks a = some v ↔
    (op = .minus → overflowChecks → a ≠ BitVec.intMin 32) ∧
      v = BitVec.ofInt 32 (cUnary op a.toInt) := by
  cases op with
  | add => simp [fold, cUnary, eq_comm]
  | minus =>
    have negated : BitVec.ofInt 32 (-a.toInt) = -a := by
      rw [← BitVec.toInt_inj, BitVec.toInt_neg, BitVec.toInt_ofInt]
    by_cases fails : overflowChecks = true ∧ a = BitVec.intMin 32
    · obtain ⟨rfl, rfl⟩ := fails
      simp [fold]
    · have fine : (overflowChecks && a == BitVec.intMin 32) = false := by simpa using fails
      have fine' : overflowChecks = true → a ≠ BitVec.intMin 32 := fun checks isMin =>
        fails ⟨checks, isMin⟩
      rw [fold, fine, cUnary, negated]
      exact ⟨fun isNeg => ⟨fun _ => fine', (Option.some.inj isNeg).symm⟩,
        fun isNeg => congrArg some isNeg.2.symm⟩
  | negation =>
    rw [fold, cUnary, ofInt_flag, beq_eq_decide]
    simp only [toInt_eq_zero, Option.some.injEq, reduceCtorEq, false_implies, true_and]
    exact eq_comm

theorem truth_and : truth (a != 0 && b != 0) = if a = 0 then 0 else truth (b != 0) := by
  by_cases isZero : a = 0
  · rw [if_pos isZero, isZero]
    rfl
  · rw [if_neg isZero, bne_iff_ne.mpr isZero, Bool.true_and]

theorem truth_or : truth (a != 0 || b != 0) = if a = 0 then truth (b != 0) else 1 := by
  by_cases isZero : a = 0
  · rw [if_pos isZero, isZero]
    rfl
  · rw [if_neg isZero, bne_iff_ne.mpr isZero]
    rfl

namespace Tree

/-- Where nothing fails, evaluating every operand gives the value. -/
theorem fold_of_nothingFails {t : Tree} (constant : t.IsConstant names)
    (fine : t.NothingFails names overflowChecks) :
    ∃ v, t.fold names overflowChecks = some v ∧ t.eval names = some v := by
  induction t with
  | number num => exact ⟨num, rfl, rfl⟩
  | name ident =>
    obtain ⟨v, isValue⟩ := Option.isSome_iff_exists.mp constant
    exact ⟨v, isValue, isValue⟩
  | unary op arg ih =>
    obtain ⟨a, folded, isValue⟩ := ih constant fine.1
    have noOverflow : op = .minus → overflowChecks → a ≠ BitVec.intMin 32 :=
      fun isMinus checks isMin => fine.2 isMinus checks (isValue.trans (congrArg some isMin))
    refine ⟨_, ?_, by rw [eval, isValue, Option.map_some]⟩
    rw [fold, folded]
    exact UnaryOp.fold_eq_some_iff.mpr ⟨noOverflow, rfl⟩
  | binary op lhs rhs ihLhs ihRhs =>
    obtain ⟨inLanguage, constantLhs, constantRhs⟩ := constant
    obtain ⟨a, foldedLhs, isLhs⟩ := ihLhs constantLhs fine.1
    obtain ⟨b, foldedRhs, isRhs⟩ := ihRhs constantRhs fine.2.1
    obtain ⟨n, isResult⟩ := Option.isSome_iff_exists.mp
      ((cBinary_isSome (a := a) inLanguage).mpr fun divides isZero =>
        fine.2.2 divides (isRhs.trans (congrArg some isZero)))
    refine ⟨BitVec.ofInt 32 n, ?_, ?_⟩
    · simp only [fold, foldedLhs, foldedRhs, Option.bind_eq_bind, Option.bind_some,
        evalI32Binary_eq inLanguage, isResult, Option.map_some]
    · simp only [eval, isLhs, isRhs, Option.bind_eq_bind, Option.bind_some, isResult,
        Option.map_some]
  | and lhs rhs ihLhs ihRhs =>
    obtain ⟨a, foldedLhs, isLhs⟩ := ihLhs constant.1 fine.1
    obtain ⟨b, foldedRhs, isRhs⟩ := ihRhs constant.2 fine.2
    refine ⟨truth (a != 0 && b != 0), ?_, ?_⟩
    · simp only [fold, foldedLhs, foldedRhs, Option.bind_eq_bind, Option.bind_some]
    · simp only [eval, isLhs, isRhs, Option.bind_eq_bind, Option.bind_some, Option.map_some,
        truth_and, apply_ite some]
  | or lhs rhs ihLhs ihRhs =>
    obtain ⟨a, foldedLhs, isLhs⟩ := ihLhs constant.1 fine.1
    obtain ⟨b, foldedRhs, isRhs⟩ := ihRhs constant.2 fine.2
    refine ⟨truth (a != 0 || b != 0), ?_, ?_⟩
    · simp only [fold, foldedLhs, foldedRhs, Option.bind_eq_bind, Option.bind_some]
    · simp only [eval, isLhs, isRhs, Option.bind_eq_bind, Option.bind_some, Option.map_some,
        truth_or, apply_ite some]

/-- Evaluating every operand fails where an operation does. -/
theorem nothingFails_of_fold {t : Tree} (constant : t.IsConstant names)
    (folded : t.fold names overflowChecks = some v) : t.NothingFails names overflowChecks := by
  have value : ∀ {t : Tree} {v w}, t.IsConstant names → t.NothingFails names overflowChecks →
      t.fold names overflowChecks = some v → t.eval names = some w → v = w := by
    intro t v w constant fine folded isValue
    obtain ⟨u, folded', isValue'⟩ := fold_of_nothingFails constant fine
    exact Option.some.inj (folded.symm.trans (folded'.trans (isValue'.symm.trans isValue)))
  induction t generalizing v with
  | number num => trivial
  | name ident => trivial
  | unary op arg ih =>
    obtain ⟨a, foldedArg, result⟩ := Option.bind_eq_some_iff.mp folded
    have constantArg : arg.IsConstant names := constant
    have fine := ih constantArg foldedArg
    refine ⟨fine, fun isMinus checks isMin => ?_⟩
    exact (UnaryOp.fold_eq_some_iff.mp result).1 isMinus checks 
      (value constantArg fine foldedArg isMin)
  | binary op lhs rhs ihLhs ihRhs =>
    obtain ⟨inLanguage, constantLhs, constantRhs⟩ := constant
    obtain ⟨a, foldedLhs, more⟩ := Option.bind_eq_some_iff.mp folded
    obtain ⟨b, foldedRhs, result⟩ := Option.bind_eq_some_iff.mp more
    have fineRhs := ihRhs constantRhs foldedRhs
    refine ⟨ihLhs constantLhs foldedLhs, fineRhs, fun divides isZero => ?_⟩
    rw [evalI32Binary_eq inLanguage] at result
    obtain ⟨n, isResult, -⟩ := Option.map_eq_some_iff.mp result
    exact (cBinary_isSome inLanguage).mp (Option.isSome_iff_exists.mpr ⟨n, isResult⟩) divides
      (value constantRhs fineRhs foldedRhs isZero)
  | and lhs rhs ihLhs ihRhs | or lhs rhs ihLhs ihRhs =>
    obtain ⟨a, foldedLhs, more⟩ := Option.bind_eq_some_iff.mp folded
    obtain ⟨b, foldedRhs, -⟩ := Option.bind_eq_some_iff.mp more
    exact ⟨ihLhs constant.1 foldedLhs, ihRhs constant.2 foldedRhs⟩

end Tree

end Folding

/-! ## The two translations over trees -/

namespace Tree

variable (overflowChecks : Bool)

def globalConvert : Tree → Translation
  | number num => fun ctx => some (ctx.pushGlobal num)
  | name ident => globalLVal ident
  | unary op arg => fun ctx => (globalConvert arg ctx).bind (globalUnary overflowChecks op)
  | binary op lhs rhs => globalComp (globalConvert lhs) (globalConvert rhs) op
  | and lhs rhs => globalAnd (globalConvert lhs) (globalConvert rhs)
  | or lhs rhs => globalOr (globalConvert lhs) (globalConvert rhs)

def convert : Tree → Translation
  | number num => unlessComplete fun ctx => some (ctx.pushLocal num)
  | name ident => unlessComplete (convertLVal ident)
  | unary op arg =>
    unlessComplete fun ctx => (convert arg ctx).bind (convertUnary overflowChecks op)
  | binary op lhs rhs => unlessComplete (convertComp (convert lhs) (convert rhs) op)
  | and lhs rhs => unlessComplete (convertAnd (convert lhs) (convert rhs))
  | or lhs rhs => unlessComplete (convertOr (convert lhs) (convert rhs))

end Tree

section Levels

variable (overflowChecks : Bool)

mutual
theorem Exp.globalConvert_tree : ∀ e : Exp,
    e.globalConvert overflowChecks = e.tree.globalConvert overflowChecks
  | .lOrExp e => by rw [Exp.globalConvert, Exp.tree, e.globalConvert_tree]

theorem LOrExp.globalConvert_tree : ∀ e : LOrExp,
    e.globalConvert overflowChecks = e.tree.globalConvert overflowChecks
  | .lAndExp e => by rw [LOrExp.globalConvert, LOrExp.tree, e.globalConvert_tree]
  | .comp lhs rhs => by
      rw [LOrExp.globalConvert, LOrExp.tree, lhs.globalConvert_tree, rhs.globalConvert_tree,
        Tree.globalConvert]

theorem LAndExp.globalConvert_tree : ∀ e : LAndExp,
    e.globalConvert overflowChecks = e.tree.globalConvert overflowChecks
  | .eqExp e => by rw [LAndExp.globalConvert, LAndExp.tree, e.globalConvert_tree]
  | .comp lhs rhs => by
      rw [LAndExp.globalConvert, LAndExp.tree, lhs.globalConvert_tree, rhs.globalConvert_tree,
        Tree.globalConvert]

theorem EqExp.globalConvert_tree : ∀ e : EqExp,
    e.globalConvert overflowChecks = e.tree.globalConvert overflowChecks
  | .relExp e => by rw [EqExp.globalConvert, EqExp.tree, e.globalConvert_tree]
  | .comp lhs op rhs => by
      rw [EqExp.globalConvert, EqExp.tree, lhs.globalConvert_tree, rhs.globalConvert_tree,
        Tree.globalConvert]

theorem RelExp.globalConvert_tree : ∀ e : RelExp,
    e.globalConvert overflowChecks = e.tree.globalConvert overflowChecks
  | .addExp e => by rw [RelExp.globalConvert, RelExp.tree, e.globalConvert_tree]
  | .comp lhs op rhs => by
      rw [RelExp.globalConvert, RelExp.tree, lhs.globalConvert_tree, rhs.globalConvert_tree,
        Tree.globalConvert]

theorem AddExp.globalConvert_tree : ∀ e : AddExp,
    e.globalConvert overflowChecks = e.tree.globalConvert overflowChecks
  | .mulExp e => by rw [AddExp.globalConvert, AddExp.tree, e.globalConvert_tree]
  | .comp lhs op rhs => by
      rw [AddExp.globalConvert, AddExp.tree, lhs.globalConvert_tree, rhs.globalConvert_tree,
        Tree.globalConvert]

theorem MulExp.globalConvert_tree : ∀ e : MulExp,
    e.globalConvert overflowChecks = e.tree.globalConvert overflowChecks
  | .unaryExp e => by rw [MulExp.globalConvert, MulExp.tree, e.globalConvert_tree]
  | .comp lhs op rhs => by
      rw [MulExp.globalConvert, MulExp.tree, lhs.globalConvert_tree, rhs.globalConvert_tree,
        Tree.globalConvert]

theorem UnaryExp.globalConvert_tree : ∀ e : UnaryExp,
    e.globalConvert overflowChecks = e.tree.globalConvert overflowChecks
  | .primaryExp e => by rw [UnaryExp.globalConvert, UnaryExp.tree, e.globalConvert_tree]
  | .unary op e => by rw [UnaryExp.globalConvert, UnaryExp.tree, e.globalConvert_tree,
      Tree.globalConvert]

theorem PrimaryExp.globalConvert_tree : ∀ e : PrimaryExp,
    e.globalConvert overflowChecks = e.tree.globalConvert overflowChecks
  | .exp e => by rw [PrimaryExp.globalConvert, PrimaryExp.tree, e.globalConvert_tree]
  | .lVal ident => by rw [PrimaryExp.globalConvert, PrimaryExp.tree, Tree.globalConvert]
  | .number num => by rw [PrimaryExp.globalConvert, PrimaryExp.tree, Tree.globalConvert]
end

@[simp] theorem unlessComplete_twice (translate : Translation) :
    unlessComplete (unlessComplete translate) = unlessComplete translate := by
  funext ctx
  cases complete : ctx.isCompleteBb with
  | none => simp [unlessComplete, complete]
  | some isComplete => cases isComplete <;> simp [unlessComplete, complete]

/-- Every level asks again whether the block is complete. -/
theorem Tree.unlessComplete_convert (t : Tree) :
    unlessComplete (t.convert overflowChecks) = t.convert overflowChecks := by
  cases t <;> rw [convert, unlessComplete_twice]

mutual
theorem Exp.convert_tree : ∀ e : Exp, e.convert overflowChecks = e.tree.convert overflowChecks
  | .lOrExp e => by rw [Exp.convert, Exp.tree, e.convert_tree, Tree.unlessComplete_convert]

theorem LOrExp.convert_tree : ∀ e : LOrExp,
    e.convert overflowChecks = e.tree.convert overflowChecks
  | .lAndExp e => by rw [LOrExp.convert, LOrExp.tree, e.convert_tree, Tree.unlessComplete_convert]
  | .comp lhs rhs => by rw [LOrExp.convert, LOrExp.tree, lhs.convert_tree, rhs.convert_tree,
      Tree.convert]

theorem LAndExp.convert_tree : ∀ e : LAndExp,
    e.convert overflowChecks = e.tree.convert overflowChecks
  | .eqExp e => by rw [LAndExp.convert, LAndExp.tree, e.convert_tree, Tree.unlessComplete_convert]
  | .comp lhs rhs => by rw [LAndExp.convert, LAndExp.tree, lhs.convert_tree, rhs.convert_tree,
      Tree.convert]

theorem EqExp.convert_tree : ∀ e : EqExp, e.convert overflowChecks = e.tree.convert overflowChecks
  | .relExp e => by rw [EqExp.convert, EqExp.tree, e.convert_tree, Tree.unlessComplete_convert]
  | .comp lhs op rhs => by rw [EqExp.convert, EqExp.tree, lhs.convert_tree, rhs.convert_tree,
      Tree.convert]

theorem RelExp.convert_tree : ∀ e : RelExp,
    e.convert overflowChecks = e.tree.convert overflowChecks
  | .addExp e => by rw [RelExp.convert, RelExp.tree, e.convert_tree, Tree.unlessComplete_convert]
  | .comp lhs op rhs => by rw [RelExp.convert, RelExp.tree, lhs.convert_tree, rhs.convert_tree,
      Tree.convert]

theorem AddExp.convert_tree : ∀ e : AddExp,
    e.convert overflowChecks = e.tree.convert overflowChecks
  | .mulExp e => by rw [AddExp.convert, AddExp.tree, e.convert_tree, Tree.unlessComplete_convert]
  | .comp lhs op rhs => by rw [AddExp.convert, AddExp.tree, lhs.convert_tree, rhs.convert_tree,
      Tree.convert]

theorem MulExp.convert_tree : ∀ e : MulExp,
    e.convert overflowChecks = e.tree.convert overflowChecks
  | .unaryExp e => by rw [MulExp.convert, MulExp.tree, e.convert_tree, Tree.unlessComplete_convert]
  | .comp lhs op rhs => by rw [MulExp.convert, MulExp.tree, lhs.convert_tree, rhs.convert_tree,
      Tree.convert]

theorem UnaryExp.convert_tree : ∀ e : UnaryExp,
    e.convert overflowChecks = e.tree.convert overflowChecks
  | .primaryExp e => by rw [UnaryExp.convert, UnaryExp.tree, e.convert_tree,
      Tree.unlessComplete_convert]
  | .unary op e => by rw [UnaryExp.convert, UnaryExp.tree, e.convert_tree, Tree.convert]

theorem PrimaryExp.convert_tree : ∀ e : PrimaryExp,
    e.convert overflowChecks = e.tree.convert overflowChecks
  | .exp e => by rw [PrimaryExp.convert, PrimaryExp.tree, e.convert_tree,
      Tree.unlessComplete_convert]
  | .lVal ident => by rw [PrimaryExp.convert, PrimaryExp.tree, Tree.convert]
  | .number num => by rw [PrimaryExp.convert, PrimaryExp.tree, Tree.convert]
end

end Levels

end AnonCompiler.Frontend.AstGen
