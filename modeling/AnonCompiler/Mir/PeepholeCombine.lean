import AnonCompiler.Mir.VCode

/-!
# The peephole pass before register allocation

`anon_armv8/src/passes/peephole_combine.rs`.  The pass counts how often every
virtual register is an instruction operand, then

* fuses a multiplication and the addition or subtraction after it when the product
  is used once (`combineMacInBlock`);
* drops the comparison with zero between a subtraction or conjunction and a
  conditional branch, and lets the arithmetic set the flags (`fuseFlagTriple`);
* does the same across a jump: where the only predecessor of a test block ends in a
  subtraction whose result is the edge argument the test compares with zero, the
  subtraction sets the flags and the comparison goes away (`latchAt`).

Removed instructions stay in place as tombstones, so an instruction keeps its
index and every table stays as it is.
-/

set_option autoImplicit false

namespace AnonCompiler.Mir.PeepholeCombine

open VCodeContainer

variable {Op : Type}

/-- How often each virtual register is a use operand (`build_vreg_use_counts`). -/
def buildVregUseCounts (F : VCodeContainer Op) : Reg → Nat :=
  F.insts.foldl (fun counts inst =>
    inst.uses.foldl (fun counts r =>
      if r.isVirtual then Function.update counts r (counts r + 1) else counts) counts) fun _ => 0

def regOrZrToReg : RegOrZr → Option Reg
  | .reg r => some r
  | .zr => none

def regOrZrMatches (x : RegOrZr) (reg : Reg) : Bool := x = .reg reg

/-- The operand beside the product, when one of the two is the product. -/
def otherOperand (lhs rhs : RegOrZr) (mulDst : Reg) : Option Reg :=
  if regOrZrMatches lhs mulDst then regOrZrToReg rhs
  else if regOrZrMatches rhs mulDst then regOrZrToReg lhs
  else none

/-- The fused form of a multiplication and the instruction after it. -/
def fuseMac (useCounts : Reg → Nat) (first second : MInst Op) : Option (MInst Op) :=
  match first with
  | .aluRRR .mul _ mulDst mulLhs mulRhs =>
    match regOrZrToReg mulLhs, regOrZrToReg mulRhs with
    | some l, some r =>
      if useCounts mulDst ≠ 1 then none
      else
        match second with
        | .aluRRR .add size dst lhs rhs =>
          (otherOperand lhs rhs mulDst).map fun addend => .mAdd size dst l r addend
        | .aluRRR .sub size dst lhs rhs =>
          -- the product must be the subtrahend: `product - x` has no fused form
          if regOrZrMatches rhs mulDst then
            (otherOperand lhs rhs mulDst).map fun s => .mSub size dst l r s
          else none
        | _ => none
    | _, _ => none
  | _ => none

def subsSafeCond (cond : Cond) : Bool := cond ∈ [Cond.eq, .ne, .mi, .pl]

def logicalSafeCond (cond : Cond) : Bool := cond ∉ [Cond.hs, .lo, .hi, .ls]

/-- The in-block rule: arithmetic, a comparison of its result with zero, a branch. -/
def fuseFlagTriple (useCounts : Reg → Nat) (first second third : MInst Op) : Option (MInst Op) :=
  match first, second, third with
  | .aluRRImm12 .sub size dst src imm, .cmpImm cmpSize lhs cmpImm, .condBr cond _ _ =>
    if cmpSize = size ∧ cmpImm.value = 0 ∧ lhs = dst ∧ subsSafeCond cond then
      some (.subsRRImm12 size dst src imm)
    else none
  | .aluRRImmLogic .and size dst src imm, .cmpImm cmpSize lhs cmpImm, .condBr cond _ _ =>
    if cmpSize = size ∧ cmpImm.value = 0 ∧ lhs = dst ∧ logicalSafeCond cond then
      if useCounts dst = 1 then some (.tstRRImmLogic size src imm)
      else some (.andsRRImmLogic size dst src imm)
    else none
  | _, _, _ => none

/-- Scan a block forward with a window.  Where the instructions in the window fuse,
the first two of them are replaced and the scan goes on behind the window. -/
def scanFrom (width : Nat) (fuse : VCodeContainer Op → Nat → Option (MInst Op × MInst Op))
    (stop : Nat) : Nat → Nat → VCodeContainer Op × Nat → VCodeContainer Op × Nat
  | 0, _, acc => acc
  | fuel + 1, i, (F, fused) =>
    if i + width ≤ stop then
      match fuse F i with
      | some (x, y) =>
        scanFrom width fuse stop fuel (i + width) ((F.setInst i x).setInst (i + 1) y, fused + 1)
      | none => scanFrom width fuse stop fuel (i + 1) (F, fused)
    else (F, fused)

/-- Scan every block in turn. -/
def scanBlocks (width : Nat) (fuse : VCodeContainer Op → Nat → Option (MInst Op × MInst Op)) :
    List MirBlock → VCodeContainer Op × Nat → VCodeContainer Op × Nat
  | [], acc => acc
  | b :: blocks, (F, fused) =>
    scanBlocks width fuse blocks
      (scanFrom width fuse (F.stop b) (F.stop b - F.start b) (F.start b) (F, fused))

/-- What `combine_mac_in_block` writes at an index and behind it. -/
def macWindow (useCounts : Reg → Nat) (F : VCodeContainer Op) (i : Nat) :
    Option (MInst Op × MInst Op) :=
  (fuseMac useCounts (F.inst i) (F.inst (i + 1))).map fun fused => (.removed, fused)

/-- What the in-block part of `combine_flag_fusion` writes at an index and behind it. -/
def flagWindow (useCounts : Reg → Nat) (F : VCodeContainer Op) (i : Nat) :
    Option (MInst Op × MInst Op) :=
  (fuseFlagTriple useCounts (F.inst i) (F.inst (i + 1)) (F.inst (i + 2))).map fun fused =>
    (fused, .removed)

/-- A subtraction at the end of a latch that takes over the flags of a comparison. -/
structure Latch where
  cmpIdx : Nat
  subIdx : Nat
  size : OperandSize
  dst : Reg
  src : Reg
  imm : Imm12
deriving DecidableEq, Repr

def isRemoved : MInst Op → Bool
  | .removed => true
  | _ => false

/-- The first instruction of a block that is not a tombstone. -/
def firstLive (F : VCodeContainer Op) (b : MirBlock) : Option Nat :=
  (List.range' (F.start b) (F.stop b - F.start b)).find? fun i => !isRemoved (F.inst i)

/-- The cross-block rule for the test block `b`.  The outer `none` is the panic of
an index before the first instruction. -/
def latchAt (F : VCodeContainer Op) (b : MirBlock) : Option (Option Latch) :=
  match firstLive F b with
  | none => some none
  | some cmpIdx =>
    match F.inst cmpIdx with
    | .cmpImm size lhs cmpImm =>
      if cmpImm.value ≠ 0 ∨ F.stop b ≤ cmpIdx + 1 then some none
      else
        match F.inst (cmpIdx + 1), F.blockPreds b with
        | .condBr _ _ _, [pred] =>
          if F.stop pred = 0 then none
          else
            match F.inst (F.stop pred - 1) with
            | .jump label =>
              if label.block? ≠ some b then some none
              else if F.stop pred = 1 then none
              else
                match F.inst (F.stop pred - 2) with
                | .aluRRImm12 .sub subSize dst src imm =>
                  if subSize ≠ size then some none
                  else
                    match (F.blockParams b).idxOf? lhs with
                    | none => some none
                    | some k =>
                      if (F.branchBlockparams pred 0)[k]? ≠ some dst then some none
                      else some (some ⟨cmpIdx, F.stop pred - 2, size, dst, src, imm⟩)
                | _ => some none
            | _ => some none
        | _, _ => some none
    | _ => some none

/-- Rewrite the subtraction and drop the comparison. -/
def applyLatch (F : VCodeContainer Op) (l : Latch) : VCodeContainer Op :=
  (F.setInst l.subIdx (.subsRRImm12 l.size l.dst l.src l.imm)).setInst l.cmpIdx .removed

def fuseLatches : List MirBlock → VCodeContainer Op × Nat → Option (VCodeContainer Op × Nat)
  | [], acc => some acc
  | b :: blocks, (F, fused) =>
    match latchAt F b with
    | none => none
    | some none => fuseLatches blocks (F, fused)
    | some (some l) => fuseLatches blocks (applyLatch F l, fused + 1)

/-- `combine_flag_fusion`: the rewritten function and how many comparisons went. -/
def combineFlagFusion (useCounts : Reg → Nat) (F : VCodeContainer Op) :
    Option (VCodeContainer Op × Nat) :=
  fuseLatches (List.range F.numBlocks)
    (scanBlocks 3 (flagWindow useCounts) (List.range F.numBlocks) (F, 0))

/-- `PeepholeCombine::run`: the rewritten function and whether anything changed. -/
def peepholeCombine (F : VCodeContainer Op) : Option (VCodeContainer Op × Bool) :=
  let useCounts := buildVregUseCounts F
  let (F, macPairsFormed) := scanBlocks 2 (macWindow useCounts) (List.range F.numBlocks) (F, 0)
  (combineFlagFusion useCounts F).map fun (F, flagFusionsFormed) =>
    (F, decide (0 < macPairsFormed) || decide (0 < flagFusionsFormed))

end AnonCompiler.Mir.PeepholeCombine
