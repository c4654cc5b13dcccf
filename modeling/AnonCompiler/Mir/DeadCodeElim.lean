import AnonCompiler.Lib.Fixpoint
import AnonCompiler.Mir.VCode

/-!
# Dead machine instructions

The pass of `anon_armv8/src/passes/dce.rs`.  It counts the uses of every virtual register
and keeps a worklist of instructions whose definitions have no use left; removing such an
instruction takes its uses away, which may put the definition of a used register on the
worklist.  `visit` is what happens with an index taken from the worklist, so that the
order in which indices are taken is left to its callers: the code takes the last one.

The forms of instructions that have no constructor in `MInst` are listed by name, with any
registers they use and define.  A failed index access or a counter below zero is `none`.
The counters, 32 bits wide in the source, are natural numbers; none exceeds the number of
operands.  The statistics of the pass are left out.
-/

set_option autoImplicit false

namespace AnonCompiler.Mir.DeadCodeElim

/-- The forms without a constructor of their own. -/
inductive OtherForm where
  | aluRRRR
  | aluRRImmShift
  | aluRRRShift
  | aluRRRExtend
  | sDiv
  | sMulL
  | mov
  | movPhys
  | loadImm
  | movZ
  | movN
  | movK
  | movFromZero
  | sxtw
  | loadAddr
  | stackAddr
  | bCond
  | cmpSelect
  | fMov
  | vecMov
  | vecLd1
  | vecSt1
  | vecDup
  | vecArithRRR
  | vecFmla
  | vecBitwise
  | vecCmp
  | vecBsl
  | vecCvt
  | vecAddv
  | vecMovImm
  | vecExtractLane
  | vecInsertLane
  | vecMinMax
  | fMovFromZero
  | fAlu
  | fCmp
  | scvtf
  | fcvtzs
  | load
  | store
  | loadPair
  | storePair
  | call
  | retVal
  | args
deriving DecidableEq, Repr

abbrev Inst := MInst OtherForm

/-- The whitelist of pure instructions. -/
def isDceRemovable : Inst → Bool
  | .aluRRR .. | .aluRRImm12 .. | .aluRRImmLogic .. | .mAdd .. | .mSub .. | .cSet .. => true
  | .other form _ _ =>
    match form with
    | .aluRRRR | .aluRRImmShift | .aluRRRShift | .aluRRRExtend | .sDiv | .sMulL | .mov | .movPhys
    | .loadImm | .movZ | .movN | .movK | .movFromZero | .sxtw | .loadAddr | .stackAddr
    | .cmpSelect | .fMov | .vecMov | .vecLd1 | .vecDup | .vecArithRRR | .vecFmla | .vecBitwise
    | .vecCmp | .vecBsl | .vecCvt | .vecAddv | .vecMovImm | .vecExtractLane | .vecInsertLane
    | .vecMinMax | .fMovFromZero | .fAlu | .scvtf | .fcvtzs | .load | .loadPair => true
    | _ => false
  | _ => false

/-! ## The tables -/

/-- The operands of one instruction. -/
structure InstInfo where
  uses : List Reg
  defs : List Reg
  removable : Bool
  hasNonVirtualDef : Bool
deriving DecidableEq, Repr

/-- Removable, with a definition, and no definition is physical or has a use left. -/
def InstInfo.isDead (info : InstInfo) (useCounts : Reg → Option Nat) : Bool :=
  info.removable && !info.defs.isEmpty && !info.hasNonVirtualDef &&
    info.defs.all fun d => (useCounts d).getD 0 == 0

/-- What the visitor of `get_operands` collects of one instruction. -/
def infoOf (inst : Inst) : InstInfo where
  uses := inst.uses.filter Reg.isVirtual
  defs := inst.defs
  removable := isDceRemovable inst
  hasNonVirtualDef := inst.defs.any fun d => !d.isVirtual

def countUse (useCounts : Reg → Option Nat) (reg : Reg) : Reg → Option Nat :=
  Function.update useCounts reg (some ((useCounts reg).getD 0 + 1))

structure Tables where
  useCounts : Reg → Option Nat
  infos : List InstInfo
  defSite : Reg → Option Nat

def Tables.visitInst (tables : Tables) (inst : Inst) (i : Nat) : Tables where
  useCounts := (infoOf inst).uses.foldl countUse tables.useCounts
  infos := tables.infos ++ [infoOf inst]
  defSite := (inst.defs.filter Reg.isVirtual).foldl
    (fun site d => Function.update site d (some i)) tables.defSite

/-- The uses, definitions and counts of a list of instructions. -/
def collect (insts : List Inst) (extraUses : List Reg) : Tables :=
  insts.zipIdx.foldl (fun tables (inst, i) => tables.visitInst inst i)
    ⟨(extraUses.filter Reg.isVirtual).foldl countUse fun _ => none, [], fun _ => none⟩

/-! ## The worklist -/

structure State where
  insts : List Inst
  infos : List InstInfo
  useCounts : Reg → Option Nat
  worklist : List Nat
  tombstoned : List Bool
  removed : Nat

section DefSite

variable (defSite : Reg → Option Nat)

/-- One use goes away. -/
def dropUse (counts : (Reg → Option Nat) × List Nat) (used : Reg) :
    Option ((Reg → Option Nat) × List Nat) :=
  match counts.1 used with
  | none => some counts
  | some 0 => none
  | some (count + 1) =>
    some (Function.update counts.1 used (some count),
      if count = 0 then counts.2 ++ (defSite used).toList else counts.2)

def dropUses (uses : List Reg) (counts : (Reg → Option Nat) × List Nat) :
    Option ((Reg → Option Nat) × List Nat) := uses.foldlM (dropUse defSite) counts

/-- An index has been taken from the worklist, and `rest` is left of it. -/
def visit (s : State) (rest : List Nat) (i : Nat) : Option State := do
  let done ← s.tombstoned[i]?
  let info ← s.infos[i]?
  if done || !info.isDead s.useCounts then some { s with worklist := rest }
  else do
    let (useCounts, worklist) ← dropUses defSite info.uses (s.useCounts, rest)
    some {
      insts := s.insts.set i .removed
      infos := s.infos.set i { info with uses := [] }
      useCounts := useCounts
      worklist := worklist
      tombstoned := s.tombstoned.set i true
      removed := s.removed + 1 }

/-- One turn of the loop. -/
def step (s : State) : Option (State ⊕ State) :=
  match s.worklist.getLast? with
  | none => some (.inr s)
  | some i => (visit defSite s s.worklist.dropLast i).map .inl

/-- Some index of the worklist is taken. -/
def Takes (s t : State) : Prop :=
  ∃ before i after, s.worklist = before ++ i :: after ∧
    visit defSite s (before ++ after) i = some t

end DefSite

def start (insts : List Inst) (extraUses : List Reg) : State :=
  let tables := collect insts extraUses
  { insts := insts
    infos := tables.infos
    useCounts := tables.useCounts
    worklist := (List.range insts.length).filter fun i =>
      tables.infos[i]?.any fun info => info.isDead tables.useCounts
    tombstoned := List.replicate insts.length false
    removed := 0 }

/-- The instructions that are left, and how many have been removed. -/
def eliminateDeadInsts (fuel : Nat) (insts : List Inst) (extraUses : List Reg) :
    Option (List Inst × Nat) :=
  (Lib.loop (step (collect insts extraUses).defSite) fuel (start insts extraUses)).map
    fun s => (s.insts, s.removed)

/-- `DeadCodeElim::run`, with the answer whether the function has changed. -/
def run (fuel : Nat) (vcode : VCodeContainer OtherForm) : Option
    (VCodeContainer OtherForm × Bool) :=
  (eliminateDeadInsts fuel vcode.insts vcode.branchBlockArgs).map fun (insts, removed) =>
    ({ vcode with insts := insts }, decide (removed > 0))

/-! ## What is dead -/

/-- No virtual register is defined by two instructions. -/
def SingleDef (insts : List Inst) : Prop :=
  ∀ (i j : Nat) (x y : Inst), insts[i]? = some x → insts[j]? = some y →
    ∀ r : Reg, r.isVirtual = true → r ∈ x.defs → r ∈ y.defs → i = j

/-- The set contains every whitelisted instruction with definitions, all of them virtual,
that no branch argument and no instruction outside the set uses. -/
def Closed (insts : List Inst) (extraUses : List Reg) (S : Set Nat) : Prop :=
  ∀ (i : Nat) (x : Inst), insts[i]? = some x → isDceRemovable x = true → x.defs ≠ [] →
    (∀ r ∈ x.defs, r.isVirtual = true ∧ r ∉ extraUses ∧
      ∀ (j : Nat) (y : Inst), insts[j]? = some y → r ∈ y.uses → j ∈ S) → i ∈ S

/-- The uses of a register that are left: in the instructions and as branch arguments. -/
def usesLeft (extraUses : List Reg) (insts : List Inst) (r : Reg) : Nat :=
  (extraUses ++ insts.flatMap MInst.uses).count r

/-- The instructions of the set have been removed, and the others are as they were. -/
def Removes (insts : List Inst) (S : Set Nat) (insts' : List Inst) : Prop :=
  insts'.length = insts.length ∧
    ∀ i, i < insts.length → (i ∈ S → insts'[i]? = some .removed) ∧ (i ∉ S → insts'[i]? = insts[i]?)

/-- What is still to do: the worklist, and the uses that may add to it. -/
def State.work (s : State) : Nat :=
  s.worklist.length + (s.infos.map fun info => info.uses.length).sum

end AnonCompiler.Mir.DeadCodeElim
