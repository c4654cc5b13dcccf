import AnonCompiler.Ir.Edit
import AnonCompiler.Ir.ProgramRun

/-!
# Recognising multiplication by doubling

The pass of `opt/passes/mulmod_recognize.rs`.  It looks for functions

    int f(int a, int b) {
        if (b == 0) return 0;
        if (b == 1) return a % P;
        int cur = f(a, b / 2);
        cur = (cur + cur) % P;
        if (b % 2 == 1) return (cur + a) % P;
        return cur;
    }

and replaces the body by a guard `b < 0` and a call of the modular
multiplication the backend expands in place.  The matcher collects the
instructions of the function into a `Shape` and checks their operands and
users.
-/

set_option autoImplicit false

namespace AnonCompiler.Opt.Mulmod

open Ir

/-! ## Matching single instructions -/

def constI32 (F : FunctionData) (inst : Inst) : Option (BitVec 32) :=
  match F.kind inst with
  | some (.integer value) => some value
  | _ => none

/-- The operator and the operands of a binary instruction. -/
def binaryOf (F : FunctionData) (inst : Inst) : Option (BinaryOp × Inst × Inst) :=
  match F.kind inst with
  | some (.binary op lhs rhs) => some (op, lhs, rhs)
  | _ => none

/-- The instructions that compute `b / 2`, as `sar(b, 1)`, as
`sar(add(b, shr(b, 31)), 1)` or as `div(b, 2)`, and those of them that read `b`. -/
def halfBinaries (F : FunctionData) (b half : Inst) : Option (List Inst × List Inst) :=
  match binaryOf F half with
  | some (.sar, x, k) =>
    if x = b ∧ constI32 F k = some 1 then some ([half], [half])
    else
      match binaryOf F x with
      | some (.add, l, r) =>
        if l = b then
          match binaryOf F r with
          | some (.shr, s, k31) =>
            if s = b ∧ constI32 F k31 = some 31 then some ([half, x, r], [x, r]) else none
          | _ => none
        else none
      | _ => none
  | some (.div, x, k) => if x = b ∧ constI32 F k = some 2 then some ([half], [half]) else none
  | _ => none

/-- The masks accepted in the test of the low bit: with and without the sign. -/
def signedMask : BitVec 32 := 0x80000001

def bitMask : BitVec 32 := 1

/-- A test `and(b, mask) == 1` or `rem(b, 2) == 1`: the instruction that reads
`b`, and the comparison. -/
def parityBinaries (F : FunctionData) (b cond : Inst) : Option (Inst × Inst) :=
  match binaryOf F cond with
  | some (.eq, l, r) =>
    if constI32 F r ≠ some 1 then none
    else
      match binaryOf F l with
      | some (.and, x, m) =>
        if x = b ∧ (constI32 F m = some signedMask ∨ constI32 F m = some bitMask) then
          some (l, cond)
        else none
      | some (.rem, x, k) => if x = b ∧ constI32 F k = some 2 then some (l, cond) else none
      | _ => none
  | _ => none

/-- A test of `b` against zero; the inner `none` means the condition is `b`
itself. -/
def entryBUse (F : FunctionData) (b cond : Inst) : Option (Option Inst) :=
  if cond = b then some none
  else
    match binaryOf F cond with
    | some (.notEq, l, r) => if l = b ∧ constI32 F r = some 0 then some (some cond) else none
    | some (.eq, l, r) => if l = b ∧ constI32 F r = some 0 then some (some cond) else none
    | _ => none

/-- A test `b == 1`. -/
def eq1Inst (F : FunctionData) (b cond : Inst) : Option Inst :=
  match binaryOf F cond with
  | some (.eq, l, r) => if l = b ∧ constI32 F r = some 1 then some cond else none
  | _ => none

def usesAreExactly (F : FunctionData) (value : Inst) (expected : List Inst) : Bool :=
  (F.usedBy value).length = expected.length ∧ ∀ user ∈ expected, user ∈ F.usedBy value

/-! ## Collecting the instructions -/

structure Scan where
  selfCall : Option Inst
  returns : List (Inst × Option Inst)
  branches : List (Inst × Inst)
  binaries : List Inst

/-- One instruction of the layout; anything the shape does not have ends the
match. -/
def scanInst (F : FunctionData) (f : Function) (acc : Scan) (inst : Inst) : Option Scan :=
  match F.kind inst with
  | some (.call callee _) => if callee = f then some { acc with selfCall := some inst } else none
  | some (.ret value) => some { acc with returns := acc.returns ++ [(inst, value)] }
  | some (.branch cond _ tArgs _ fArgs) =>
    if tArgs = [] ∧ fArgs = [] then some { acc with branches := acc.branches ++ [(inst, cond)] }
    else none
  | some (.jump _ args) => if args = [] then some acc else none
  | some (.binary ..) => some { acc with binaries := acc.binaries ++ [inst] }
  | some (.integer _) | some (.blockArgRef _) => some acc
  | _ => none

def scan (F : FunctionData) (f : Function) : Option Scan :=
  F.layoutInsts.foldlM (scanInst F f) ⟨none, [], [], []⟩

/-- The doubling `add(call, call)`. -/
def findDoubleAdd (F : FunctionData) (binaries : List Inst) (selfCall : Inst) : Option Inst :=
  binaries.reverse.find? fun inst => binaryOf F inst = some (.add, selfCall, selfCall)

/-- The remainder of the doubling, with its modulus. -/
def findDouble (F : FunctionData) (binaries : List Inst) (doubleAdd : Inst) :
    Option (Inst × BitVec 32) :=
  binaries.reverse.findSome? fun inst =>
    match binaryOf F inst with
    | some (.rem, l, r) =>
      if l = doubleAdd then
        match constI32 F r with
        | some p => if 0 < p.toInt then some (inst, p) else none
        | none => none
      else none
    | _ => none

/-- The addition of `a` for an odd `b`. -/
def findOddAdd (F : FunctionData) (binaries : List Inst) (double a : Inst) : Option Inst :=
  binaries.reverse.find? fun inst =>
    binaryOf F inst = some (.add, double, a) ∨ binaryOf F inst = some (.add, a, double)

/-- The four returns; two of them with the remainder they return. -/
structure Returns where
  ret0 : Option Inst
  ret1 : Option (Inst × Inst)
  even : Option Inst
  odd : Option (Inst × Inst)

def classifyReturn (F : FunctionData) (a double oddAdd : Inst) (modulus : BitVec 32)
    (acc : Returns) (ret : Inst × Option Inst) : Option Returns :=
  match ret.2 with
  | none => none
  | some value =>
    if constI32 F value = some 0 then
      if acc.ret0.isSome then none else some { acc with ret0 := some ret.1 }
    else if value = double then
      if acc.even.isSome then none else some { acc with even := some ret.1 }
    else
      match binaryOf F value with
      | some (.rem, l, r) =>
        if l = a ∧ constI32 F r = some modulus then
          if acc.ret1.isSome then none else some { acc with ret1 := some (value, ret.1) }
        else if l = oddAdd ∧ constI32 F r = some modulus then
          if acc.odd.isSome then none else some { acc with odd := some (value, ret.1) }
        else none
      | _ => none

/-- The three branches, by their conditions. -/
structure Branches where
  entry : Option (Inst × Option Inst)
  eq1 : Option Inst
  parity : Option (Inst × Inst)

def classifyBranch (F : FunctionData) (b : Inst) (acc : Branches) (branch : Inst × Inst) :
    Option Branches :=
  match entryBUse F b branch.2 with
  | some use =>
    if acc.entry.isSome then none else some { acc with entry := some (branch.1, use) }
  | none =>
    match eq1Inst F b branch.2 with
    | some eq => if acc.eq1.isSome then none else some { acc with eq1 := some eq }
    | none =>
      match parityBinaries F b branch.2 with
      | some parity =>
        if acc.parity.isSome then none else some { acc with parity := some parity }
      | none => none

/-! ## The matcher -/

/-- The matched instructions. -/
structure Shape where
  a : Inst
  b : Inst
  selfCall : Inst
  half : Inst
  doubleAdd : Inst
  double : Inst
  oddAdd : Inst
  modulus : BitVec 32
deriving DecidableEq

/-- The checks on the users of the key values and on the remaining binaries. -/
def explained (F : FunctionData) (s : Shape) (binaries : List Inst) (half : List Inst × List Inst)
    (returns : Returns) (branches : Branches) : Option Unit := do
  let _ ← returns.ret0
  let (ret1Rem, _) ← returns.ret1
  let retEven ← returns.even
  let (retOddRem, _) ← returns.odd
  let (entryBranch, entryUse) ← branches.entry
  let eq1 ← branches.eq1
  let (parityUse, parityEq) ← branches.parity
  guard (usesAreExactly F s.selfCall [s.doubleAdd])
  guard (usesAreExactly F s.double [retEven, s.oddAdd])
  guard (usesAreExactly F s.a [s.selfCall, ret1Rem, s.oddAdd])
  guard (usesAreExactly F s.b (half.2 ++ [entryUse.getD entryBranch, eq1, parityUse]))
  guard (∀ inst ∈ binaries, inst ∈ half.1 ++ [s.doubleAdd, s.double, s.oddAdd, ret1Rem, retOddRem,
    parityUse, parityEq, eq1] ++ entryUse.toList)

def matchShape (P : Program) (f : Function) : Option Shape := do
  let F ← P.funcData f
  guard (F.entryBlock.isSome ∧ F.retTy = .int32)
  match F.params with
  | [a, b] =>
    let aData ← F.insts a
    let bData ← F.insts b
    guard (aData.ty = .int32 ∧ bData.ty = .int32)
    let found ← scan F f
    let selfCall ← found.selfCall
    match F.kind selfCall with
    | some (.call _ [a', half]) =>
      guard (a' = a)
      let halfBins ← halfBinaries F b half
      let doubleAdd ← findDoubleAdd F found.binaries selfCall
      let (double, modulus) ← findDouble F found.binaries doubleAdd
      let oddAdd ← findOddAdd F found.binaries double a
      let returns ← found.returns.foldlM (classifyReturn F a double oddAdd modulus)
        ⟨none, none, none, none⟩
      guard (found.branches.length = 3)
      let branches ← found.branches.foldlM (classifyBranch F b) ⟨none, none, none⟩
      let shape : Shape := ⟨a, b, selfCall, half, doubleAdd, double, oddAdd, modulus⟩
      explained F shape found.binaries halfBins returns branches
      some shape
    | _ => none
  | _ => none

def recognize (P : Program) (f : Function) : Option (BitVec 32) :=
  (matchShape P f).map Shape.modulus

/-! ## The rewrite -/

/-- Remove all instructions of the entry block and all other blocks. -/
def clearBody (F : FunctionData) (entry : BasicBlock) : FunctionData :=
  let cleared :=
    ((F.blockInsts entry).getD []).foldl (fun G inst => G.removeLayoutInst entry inst) F
  (cleared.blocks.filter (· ≠ entry)).foldl FunctionData.removeLayoutBasicblock cleared

/-- The new body: `if (b < 0) return 0; return helper(a, b, modulus);`. -/
def newBody (F : FunctionData) (entry : BasicBlock) (a b : Inst) (helper : Function)
    (modulus : BitVec 32) : FunctionData :=
  let zeroConst := F.nextInst
  let F := F.newInst ⟨.int32, .integer 0⟩
  let cond := F.nextInst
  let F := F.newInst ⟨.int32, .binary .lt b zeroConst⟩
  let thenZero := F.nextBlock
  let F := F.newBlock []
  let thenFast := F.nextBlock
  let F := F.newBlock []
  let F := (F.pushBlock thenZero).pushBlock thenFast
  let branch := F.nextInst
  let F := F.newInst ⟨.unit, .branch cond thenZero [] thenFast []⟩
  let F := (F.insertInst entry cond).insertInst entry branch
  let retZero := F.nextInst
  let F := (F.newInst ⟨.unit, .ret (some zeroConst)⟩).insertInst thenZero retZero
  let p := F.nextInst
  let F := F.newInst ⟨.int32, .integer modulus⟩
  let call := F.nextInst
  let F := F.newInst ⟨.int32, .call helper [a, b, p]⟩
  let retCall := F.nextInst
  let F := F.newInst ⟨.unit, .ret (some call)⟩
  (F.insertInst thenFast call).insertInst thenFast retCall

def rewriteData (F : FunctionData) (helper : Function) (modulus : BitVec 32) : FunctionData :=
  match F.entryBlock, F.params with
  | some entry, a :: b :: _ => newBody (clearBody F entry) entry a b helper modulus
  | _, _ => F

def rewrite (P : Program) (f helper : Function) (modulus : BitVec 32) : Program :=
  match P.funcData f with
  | some F => { P with funcs := P.funcs.set f (rewriteData F helper modulus) }
  | none => P

/-! ## The pass -/

/-- A declaration, as the program gets it when it has none of the helper. -/
def helperDecl : FunctionData where
  retTy := .int32
  name := mulmodHelper
  paramsTy := [.int32, .int32, .int32]
  params := []
  layout := []
  insts := fun _ => none
  nextInst := 1
  blockParams := fun _ => []
  nextBlock := 1

def isNamed (P : Program) (name : String) (f : Function) : Bool :=
  match P.funcData f with
  | some F => F.name = name
  | none => false

def findOrDeclareHelper (P : Program) : Function × Program :=
  match P.functionLayout.find? (isNamed P mulmodHelper) with
  | some f => (f, P)
  | none => (P.funcs.length, { P with
      funcs := P.funcs ++ [helperDecl]
      functionLayout := P.functionLayout ++ [P.funcs.length] })

/-- The program defines the helper itself. -/
def ownsHelper (P : Program) : Bool :=
  P.functionLayout.any fun f =>
    match P.funcData f with
    | some F => F.name = mulmodHelper && F.entryBlock.isSome
    | none => false

def rewriteAll (helper : Function) (P : Program) (candidates : List Function) : Program :=
  candidates.foldl (fun P f =>
    match recognize P f with
    | some modulus => rewrite P f helper modulus
    | none => P) P

def run (P : Program) : Program :=
  let candidates := P.functionLayout.filter fun f => (recognize P f).isSome
  if candidates = [] then P
  else if ownsHelper P then P
  else
    let (helper, P) := findOrDeclareHelper P
    rewriteAll helper P candidates

end AnonCompiler.Opt.Mulmod
