import AnonCompiler.Mir.ChainFusion
import AnonCompiler.Mir.FrameLegal
import AnonCompiler.Mir.PeepholeSound

/-!
# The flags of a fused branch in the final code

`finalize_for_emission` of `taki_mir/src/vcode.rs` puts the moves of the register allocator
between the instructions and legalizes every instruction.  None of what it adds writes the
flags, so where a fused block branches the last compare executed is one that is the same as
the removed one (`run_keepsFlags`).

An execution is a path of blocks, with any registers and any world at every instruction.
-/

set_option autoImplicit false

namespace AnonCompiler.Mir.ChainFusion

open VCodeContainer

variable {Op World : Type}

/-! ## Finalization -/

inductive Allocation where
  | reg (index : Nat)
  | stack (slot : Nat)
deriving DecidableEq, Repr

inductive LoweredType where
  | i32
  | i64
  | f32
  | vector
deriving DecidableEq, Repr

/-- A move of the register allocator. -/
structure Edit where
  source : Allocation
  target : Allocation
  regClass : RegClass
  vreg : Option Nat
deriving DecidableEq, Repr

/-- A program point: twice the index of the instruction, and one more behind it. -/
abbrev ProgPoint := Nat

inductive InstOrEdit where
  | inst (index : Nat)
  | edit (edit : Edit)
deriving DecidableEq, Repr

/-- What the allocator and the frame decide: the edits in order of their points, the
register of every operand, the types of virtual registers, the place of a spill slot. -/
structure Output where
  edits : List (ProgPoint × Edit)
  register : Nat → Reg → Reg
  vregTypes : Nat → Option LoweredType
  spillSlotOffset : Nat → Option (BitVec 64)
  outgoingArgsSize : BitVec 32

/-- An instruction of the final code: one of the function, with its index, or one that
finalization makes. -/
inductive FinalInst (Op : Type) where
  | main (index : Nat) (inst : MInst Op)
  | mov (size : OperandSize) (dst src : Reg)
  | fMov (dst src : Reg)
  | vecMov (dst src : Reg)
  | frame (inst : FrameInst)

/-- Edits come before the instruction that their point does not exceed. -/
def insertEdits (edits : List (ProgPoint × Edit)) : List Nat → List InstOrEdit
  | [] => []
  | index :: insts =>
    ((edits.takeWhile (·.1 ≤ 2 * index)).map fun entry => .edit entry.2) ++
      .inst index :: insertEdits (edits.dropWhile (·.1 ≤ 2 * index)) insts

def blockInstsAndEdits (F : VCodeContainer Op) (output : Output) (b : MirBlock) : List InstOrEdit :=
  insertEdits (output.edits.dropWhile fun entry => entry.1 < 2 * F.start b)
    (List.range' (F.start b) (F.stop b - F.start b))

def genMove (src dst : Reg) : LoweredType → FinalInst Op
  | .vector => .vecMov dst src
  | .f32 => .fMov dst src
  | .i32 => .mov .size32 dst src
  | .i64 => .mov .size64 dst src

def memoryType : LoweredType → MemoryType
  | .vector => .vec128
  | .f32 => .f32
  | .i32 => .i32
  | .i64 => .i64

/-- The width of a move between registers. -/
def moveType (output : Output) (edit : Edit) : LoweredType :=
  match edit.regClass with
  | .float => .f32
  | .vector => .vector
  | .int => if edit.vreg.bind output.vregTypes = some .i32 then .i32 else .i64

/-- The width of a spill and of a reload. -/
def spillType (edit : Edit) : LoweredType :=
  match edit.regClass with
  | .float => .f32
  | .vector => .vector
  | .int => .i64

def legalizeAll (checks : Bool) (output : Output) (insts : List FrameInst) :
    Option (List (FinalInst Op)) :=
  (insts.mapM (legalizeInst checks output.outgoingArgsSize)).map fun lists =>
    lists.flatten.map .frame

def emitEdit (checks : Bool) (output : Output) (edit : Edit) : Option (List (FinalInst Op)) :=
  match edit.source, edit.target with
  | .reg source, .reg target =>
    some [genMove ⟨source, edit.regClass⟩ ⟨target, edit.regClass⟩ (moveType output edit)]
  | .reg source, .stack slot => do
      let offset ← output.spillSlotOffset slot
      legalizeAll checks output
        [.store (memoryType (spillType edit)) ⟨source, edit.regClass⟩ (.spOffset offset)]
  | .stack slot, .reg target => do
      let offset ← output.spillSlotOffset slot
      legalizeAll checks output
        [.load (memoryType (spillType edit)) ⟨target, edit.regClass⟩ (.spOffset offset)]
  | .stack source, .stack target => do
      let source ← output.spillSlotOffset source
      let target ← output.spillSlotOffset target
      legalizeAll checks output (genStackToStackMove source target ++
        if edit.regClass = .vector then genStackToStackMove (source + 8) (target + 8) else [])

/-- An instruction with other registers. -/
def mapRegs (f : Reg → Reg) : MInst Op → MInst Op
  | .aluRRR op size dst lhs rhs => .aluRRR op size (f dst) (onReg lhs) (onReg rhs)
  | .aluRRImm12 op size dst src imm => .aluRRImm12 op size (f dst) (f src) imm
  | .aluRRImmLogic op size dst src imm => .aluRRImmLogic op size (f dst) (onReg src) imm
  | .mAdd size dst lhs rhs addend => .mAdd size (f dst) (f lhs) (f rhs) (f addend)
  | .mSub size dst lhs rhs subtrahend => .mSub size (f dst) (f lhs) (f rhs) (f subtrahend)
  | .cmpRR size lhs rhs => .cmpRR size (f lhs) (onReg rhs)
  | .cmpImm size lhs imm => .cmpImm size (f lhs) imm
  | .subsRRImm12 size dst src imm => .subsRRImm12 size (f dst) (f src) imm
  | .andsRRImmLogic size dst src imm => .andsRRImmLogic size (f dst) (onReg src) imm
  | .tstRRImmLogic size src imm => .tstRRImmLogic size (onReg src) imm
  | .cCmp size lhs rhs imm nzcv cond => .cCmp size (f lhs) (onReg rhs) imm nzcv cond
  | .cSet cond dst => .cSet cond (f dst)
  | .cbz size reg t e => .cbz size (f reg) t e
  | .cbnz size reg t e => .cbnz size (f reg) t e
  | .tbz size reg bit t e => .tbz size (f reg) bit t e
  | .tbnz size reg bit t e => .tbnz size (f reg) bit t e
  | .tailCall args label => .tailCall (args.map f) label
  | .other op uses defs => .other op (uses.map f) (defs.map f)
  | inst => inst
where
  onReg : RegOrZr → RegOrZr
    | .reg r => .reg (f r)
    | .zr => .zr

/-- `frameForm` tells which other forms are accesses to memory and stack addresses; these
are the ones that legalization changes. -/
def emitInst (frameForm : MInst Op → Option FrameInst) (checks : Bool) (F : VCodeContainer Op)
    (output : Output) (index : Nat) : Option (List (FinalInst Op)) :=
  let inst := mapRegs (output.register index) (F.inst index)
  match inst, frameForm inst with
  | .other .., some access => legalizeAll checks output [access]
  | _, _ => some [.main index inst]

def emit (frameForm : MInst Op → Option FrameInst) (checks : Bool) (F : VCodeContainer Op)
    (output : Output) : InstOrEdit → Option (List (FinalInst Op))
  | .inst index => emitInst frameForm checks F output index
  | .edit edit => emitEdit checks output edit

/-- The final code of a block; `none` is a failed check of the frame. -/
def finalizeBlock (frameForm : MInst Op → Option FrameInst) (checks : Bool) (F : VCodeContainer Op)
    (output : Output) (b : MirBlock) : Option (List (FinalInst Op)) :=
  ((blockInstsAndEdits F output b).mapM (emit frameForm checks F output)).map List.flatten

/-! ## Executing the final code -/

def FinalInst.setsFlags (M : Target Op World) : FinalInst Op → Bool
  | .main _ inst => inst.setsFlags M
  | _ => false

/-- An executed instruction, with the registers and the world it found. -/
structure Executed (Op World : Type) where
  inst : FinalInst Op
  regs : Reg → Value
  world : World

def Executed.flagsAfter (M : Target Op World) (f : Flags) (x : Executed Op World) : Flags :=
  match x.inst with
  | .main _ inst => inst.flagsAfter M x.regs f x.world
  | _ => f

def flagsAfterAll (M : Target Op World) (f : Flags) (trace : List (Executed Op World)) : Flags :=
  trace.foldl (Executed.flagsAfter M) f

/-- The instructions executed when the control reaches the start of a block. -/
inductive Reaches (F : VCodeContainer Op) (code : MirBlock → List (FinalInst Op)) :
    MirBlock → List (FinalInst Op) → Prop where
  | entry : Reaches F code 0 []
  | edge {b c : MirBlock} {done : List (FinalInst Op)} (before : Reaches F code b done)
      (edge : F.Edge b c) : Reaches F code c (done ++ code b)

/-- None of the instructions writes the flags. -/
def Quiet (M : Target Op World) (code : List (FinalInst Op)) : Prop :=
  ∀ x ∈ code, x.setsFlags M = false

theorem flagsAfterAll_append {M : Target Op World} {f : Flags}
    {before after : List (Executed Op World)} :
    flagsAfterAll M f (before ++ after) = flagsAfterAll M (flagsAfterAll M f before) after :=
  List.foldl_append ..

theorem flagsAfterAll_quiet {M : Target Op World} {f : Flags} {trace : List (Executed Op World)}
    (quiet : Quiet M (trace.map Executed.inst)) : flagsAfterAll M f trace = f := by
  induction trace generalizing f with
  | nil => rfl
  | cons first trace ih =>
    have later : Quiet M (trace.map Executed.inst) := fun x member =>
      quiet x (List.mem_cons_of_mem _ member)
    have here : first.flagsAfter M f = f := by
      have keeps := quiet first.inst List.mem_cons_self
      unfold Executed.flagsAfter
      cases isInst : first.inst with
      | main index inst =>
        rw [isInst] at keeps
        exact MInst.flagsAfter_of_not_sets keeps
      | _ => rfl
    rw [flagsAfterAll, List.foldl_cons, here]
    exact ih later

/-! ## What finalization adds is quiet -/

section Finalize

variable {M : Target Op World} {frameForm : MInst Op → Option FrameInst} {checks : Bool}
  {F : VCodeContainer Op} {output : Output} {code : List (FinalInst Op)}

theorem legalizeAll_quiet {insts : List FrameInst}
    (legal : legalizeAll checks output insts = some code) : Quiet M code := by
  obtain ⟨lists, -, rfl⟩ := Option.map_eq_some_iff.mp legal
  intro x member
  obtain ⟨inst, -, rfl⟩ := List.mem_map.mp member
  rfl

theorem emitEdit_quiet {edit : Edit} (emitted : emitEdit checks output edit = some code) :
    Quiet M code := by
  unfold emitEdit at emitted
  split at emitted
  · obtain rfl := Option.some.inj emitted
    intro x member
    rw [List.mem_singleton.mp member]
    cases moveType output edit <;> rfl
  · obtain ⟨offset, -, legal⟩ := Option.bind_eq_some_iff.mp emitted
    exact legalizeAll_quiet legal
  · obtain ⟨offset, -, legal⟩ := Option.bind_eq_some_iff.mp emitted
    exact legalizeAll_quiet legal
  · obtain ⟨source, -, emitted⟩ := Option.bind_eq_some_iff.mp emitted
    obtain ⟨target, -, legal⟩ := Option.bind_eq_some_iff.mp emitted
    exact legalizeAll_quiet legal

/-- A removed instruction or a conditional branch. -/
def isQuiet (x : MInst Op) : Bool := isRemoved x || isCondBr x

theorem emitInst_quiet {index : Nat} (quiet : isQuiet (F.inst index) = true)
    (emitted : emitInst frameForm checks F output index = some code) : Quiet M code := by
  unfold emitInst at emitted
  cases isInst : F.inst index with
  | removed | condBr =>
    rw [isInst] at emitted
    obtain rfl := Option.some.inj emitted
    intro x member
    rw [List.mem_singleton.mp member]
    rfl
  | _ =>
    rw [isInst] at quiet
    cases quiet

theorem emitInst_cmpImm {index : Nat} {size : OperandSize} {lhs : Reg} {imm : Imm12}
    (isCmp : F.inst index = .cmpImm size lhs imm) : emitInst frameForm checks F output index =
      some [.main index (.cmpImm size (output.register index lhs) imm)] := by
  unfold emitInst
  rw [isCmp]
  rfl

theorem mem_insertEdits {edits : List (ProgPoint × Edit)} {insts : List Nat} {index : Nat}
    (member : .inst index ∈ insertEdits edits insts) : index ∈ insts := by
  induction insts generalizing edits with
  | nil => cases member
  | cons first insts ih =>
    rcases List.mem_append.mp member with isEdit | isInst
    · obtain ⟨entry, -, same⟩ := List.mem_map.mp isEdit
      cases same
    · rcases List.mem_cons.mp isInst with same | later
      · exact InstOrEdit.inst.inj same ▸ List.mem_cons_self
      · exact List.mem_cons_of_mem _ (ih later)

/-- Every instruction is there, and behind it come only later ones. -/
theorem insertEdits_split (edits : List (ProgPoint × Edit)) (before : List Nat) (c : Nat)
    (after : List Nat) : ∃ front back, insertEdits edits (before ++ c :: after) =
      front ++ .inst c :: back ∧ ∀ index, .inst index ∈ back → index ∈ after := by
  induction before generalizing edits with
  | nil => exact ⟨_, insertEdits _ after, rfl, fun _ => mem_insertEdits⟩
  | cons first before ih =>
    obtain ⟨front, back, eq, later⟩ := ih (edits.dropWhile (·.1 ≤ 2 * first))
    refine ⟨(edits.takeWhile (·.1 ≤ 2 * first)).map (fun entry => .edit entry.2) ++
      .inst first :: front, back, ?_, later⟩
    rw [List.cons_append, insertEdits, eq, List.append_assoc, List.cons_append]

theorem emitAll_quiet {items : List InstOrEdit} {lists : List (List (FinalInst Op))}
    (quiet : ∀ index, .inst index ∈ items → isQuiet (F.inst index) = true)
    (emitted : items.mapM (emit frameForm checks F output) = some lists) :
    Quiet M lists.flatten := by
  induction items generalizing lists with
  | nil =>
    cases emitted
    exact fun x member => nomatch member
  | cons first items ih =>
    simp only [List.mapM_cons, Option.bind_eq_bind, Option.bind_eq_some_iff, Option.pure_def,
      Option.some.injEq] at emitted
    obtain ⟨list, isList, rest, isRest, rfl⟩ := emitted
    have here : Quiet M list := by
      cases first with
      | inst index => exact emitInst_quiet (quiet index List.mem_cons_self) isList
      | edit edit => exact emitEdit_quiet isList
    have later := ih (fun index member => quiet index (List.mem_cons_of_mem _ member)) isRest
    intro x member
    rcases List.mem_append.mp (List.flatten_cons ▸ member) with inList | inRest
    · exact here x inList
    · exact later x inRest

/-- The code of a block without instructions that write the flags is quiet. -/
theorem finalizeBlock_quiet {b : MirBlock}
    (quiet : ∀ i, F.start b ≤ i → i < F.stop b → isQuiet (F.inst i) = true)
    (finalized : finalizeBlock frameForm checks F output b = some code) : Quiet M code := by
  obtain ⟨lists, emitted, rfl⟩ := Option.map_eq_some_iff.mp finalized
  refine emitAll_quiet (fun index member => ?_) emitted
  obtain ⟨low, high⟩ := List.mem_range'_1.mp (mem_insertEdits member)
  exact quiet index low (by omega)

/-- In the code of a block that only branches behind a compare the compare is the last
instruction to write the flags. -/
theorem finalizeBlock_cmpImm {b : MirBlock} {c : Nat} {size : OperandSize} {lhs : Reg} {imm : Imm12}
    (low : F.start b ≤ c) (high : c < F.stop b) (isCmp : F.inst c = .cmpImm size lhs imm)
    (quiet : ∀ i, c < i → i < F.stop b → isQuiet (F.inst i) = true)
    (finalized : finalizeBlock frameForm checks F output b = some code) :
    ∃ before after, code = before ++ .main c (.cmpImm size (output.register c lhs) imm) :: after ∧
      Quiet M after := by
  have isSplit : List.range' (F.start b) (F.stop b - F.start b) =
      List.range' (F.start b) (c - F.start b) ++ c :: List.range' (c + 1) (F.stop b - (c + 1)) := by
    have one : c :: List.range' (c + 1) (F.stop b - (c + 1)) = List.range' c (F.stop b - c) := by
      have count : F.stop b - c = F.stop b - (c + 1) + 1 := by omega
      rw [count, List.range'_succ]
    have sum : F.stop b - F.start b = c - F.start b + (F.stop b - c) := by omega
    have start : F.start b + (c - F.start b) = c := by omega
    rw [one, sum, ← List.range'_append_1, start]
  obtain ⟨front, back, eq, later⟩ := insertEdits_split
    (output.edits.dropWhile fun entry => entry.1 < 2 * F.start b)
    (List.range' (F.start b) (c - F.start b)) c (List.range' (c + 1) (F.stop b - (c + 1)))
  obtain ⟨lists, emitted, rfl⟩ := Option.map_eq_some_iff.mp finalized
  rw [blockInstsAndEdits, isSplit, eq] at emitted
  simp only [List.mapM_append, List.mapM_cons, Option.bind_eq_bind, Option.bind_eq_some_iff,
    Option.pure_def, Option.some.injEq] at emitted
  obtain ⟨before, -, rest, ⟨list, isList, after, isAfter, rfl⟩, rfl⟩ := emitted
  have isList : emitInst frameForm checks F output c = some list := isList
  rw [emitInst_cmpImm isCmp] at isList
  obtain rfl := Option.some.inj isList
  refine ⟨before.flatten, after.flatten, by simp, ?_⟩
  refine emitAll_quiet (fun index member => ?_) isAfter
  obtain ⟨low', high'⟩ := List.mem_range'_1.mp (later index member)
  exact quiet index low' (by omega)

end Finalize

/-! ## The last compare before a fused branch -/

section Last

variable {M : Target Op World} {frameForm : MInst Op → Option FrameInst} {checks : Bool}
  {F : VCodeContainer Op} {output : Output} {code : MirBlock → List (FinalInst Op)}
  {split : MirBlock} {fusion : Fusion} {size : OperandSize} {lhs : Reg} {imm : Imm12}

/-- What is quiet stays quiet. -/
theorem isQuiet_run {count k : Nat} (le : count ≤ F.numBlocks)
    (quiet : isQuiet ((runBlocks F count).1.inst k) = true) :
    isQuiet ((run F).1.inst k) = true := by
  rcases runBlocks_inst F le k with same | ⟨gone, -⟩
  · rw [run, same]
    exact quiet
  · rw [run, gone]
    rfl

theorem isQuiet_of_removed {x : MInst Op} (gone : x = .removed) : isQuiet x = true := by
  rw [gone]
  rfl

theorem EndsWith.quiet {b : MirBlock} {c d : Nat} (ends : EndsWith F b c d)
    (isBranch : isCondBr (F.inst d) = true) {i : Nat} (behind : c < i) (inside : i < F.stop b) :
    isQuiet (F.inst i) = true := by
  by_cases isLast : i = d
  · rw [isLast, isQuiet, isBranch, Bool.or_true]
  · exact isQuiet_of_removed (ends.between i behind inside isLast)

/-- A fused block does nothing to the flags. -/
theorem Fused.quiet (fused : Fused F split fusion size lhs imm) {i : Nat}
    (low : (run F).1.start split ≤ i) (high : i < (run F).1.stop split) :
    isQuiet ((run F).1.inst i) = true := by
  have tables := sameTables_runBlocks F split
  have tables' := sameTables_runBlocks F F.numBlocks
  rw [run, tables'.start, ← tables.start] at low
  rw [run, tables'.stop, ← tables.stop] at high
  have fuses := fused.fuses
  rcases Nat.lt_trichotomy i fusion.cmp with early | here | late
  · exact isQuiet_run (Nat.le_of_lt fused.block) (isQuiet_of_removed (fuses.head i low early))
  · -- the compare itself is gone from its stage on
    have inside : fusion.cmp < (runBlocks F split).1.insts.length := by
      by_contra out
      have isCmp := fuses.cmp
      rw [inst_of_le (Nat.le_of_not_lt out)] at isCmp
      cases isCmp
    have gone : (runBlocks F (split + 1)).1.inst i = .removed := by
      rw [runBlocks_succ, fuseBlock_of_find fused.found, inst_setInst, if_pos ⟨here, inside⟩]
    exact isQuiet_run fused.block (isQuiet_of_removed gone)
  · exact isQuiet_run (Nat.le_of_lt fused.block) (fuses.splitEnds.quiet fuses.br late high)

/-- Where the control reaches a fused block, the last instruction executed that writes the
flags is a compare like the removed one. -/
theorem Fused.last_compare (verified : F.Verified)
    (finalized : ∀ b < F.numBlocks,
      finalizeBlock frameForm checks (run F).1 output b = some (code b))
    {done : List (FinalInst Op)} (reaches : Reaches (run F).1 code split done)
    (fused : Fused F split fusion size lhs imm) :
    ∃ c before after, F.inst c = .cmpImm size lhs imm ∧
      done = before ++ .main c (.cmpImm size (output.register c lhs) imm) :: after ∧
      Quiet M after := by
  have verified' := (@runBlocks_run Op World F verified _ (Nat.le_refl F.numBlocks)).1
  induction reaches generalizing fusion size lhs imm with
  | entry =>
    have stage := (@runBlocks_run Op World F verified _ (Nat.le_of_lt fused.block)).1
    have block : 0 < (runBlocks F 0).1.numBlocks := fused.block
    exact absurd rfl (fused.fuses.notEntry stage block)
  | @edge b split done before edge ih =>
    have stage := (@runBlocks_run Op World F verified _ (Nat.le_of_lt fused.block)).1
    have tables := sameTables_runBlocks F split
    have tables' := sameTables_runBlocks F F.numBlocks
    have block : split < (runBlocks F split).1.numBlocks := tables.numBlocks ▸ fused.block
    have known : b < F.numBlocks := by
      have reached : Lib.Reachable (run F).1.Edge 0 b := by
        clear ih edge
        induction before with
        | entry => exact .refl
        | edge _ edge ih => exact ih.tail edge
      rw [← tables'.numBlocks]
      exact reachable_lt verified' reached
    have isPred : b = fusion.pred := by
      refine fused.fuses.onlyPred stage b (tables.numBlocks ▸ known) ?_
      have edge' : split ∈ F.blockSucc.getD b [] := tables'.blockSucc ▸ edge
      rw [Edge, blockSuccs, tables.blockSucc]
      exact edge'
    subst isPred
    have ends := fused.fuses.predEnds
    have place : F.InBlock fusion.pred fusion.predCmp := by
      have first := ends.first_le
      have last := ends.ordered.trans ends.lt_stop
      rw [tables.start] at first
      rw [tables.stop] at last
      exact ⟨known, first, last⟩
    rcases runBlocks_inst F (Nat.le_of_lt fused.block) fusion.predCmp with
      stays | ⟨-, b', fusion', -, known', found', isCmp'⟩
    · -- the compare is still in the block before
      have isCmp : (run F).1.inst fusion.predCmp = .cmpImm size lhs imm :=
        stays.trans fused.fuses.predCmp
      have quiet : ∀ i, fusion.predCmp < i → i < (run F).1.stop fusion.pred →
          isQuiet ((run F).1.inst i) = true := by
        intro i behind inside
        rw [run, tables'.stop, ← tables.stop] at inside
        exact isQuiet_run (Nat.le_of_lt fused.block) (ends.quiet fused.fuses.predBr behind inside)
      obtain ⟨front, back, eq, quietBack⟩ := finalizeBlock_cmpImm (M := M)
        (tables'.start _ ▸ place.2.1) (tables'.stop _ ▸ place.2.2) isCmp quiet
        (finalized _ known)
      exact ⟨fusion.predCmp, done ++ front, back, fused.original.2, by rw [eq, List.append_assoc],
        quietBack⟩
    · -- the block before has been fused too
      obtain ⟨size', lhs', imm', fused'⟩ := Fused.of_find known' found'
      have place' : F.InBlock b' fusion'.cmp := by
        have ends' := fused'.fuses.splitEnds
        have first := ends'.first_le
        have last := ends'.ordered.trans ends'.lt_stop
        rw [(sameTables_runBlocks F b').start] at first
        rw [(sameTables_runBlocks F b').stop] at last
        exact ⟨known', first, last⟩
      rw [isCmp'] at place'
      obtain rfl := verified.disjoint _ _ _ place place'
      have same := fused'.original.1
      rw [isCmp', fused.original.2] at same
      cases same
      obtain ⟨c, front, back, isCmp, rfl, quietBack⟩ := ih fused'
      refine ⟨c, front, back ++ code fusion.pred, isCmp, by simp, fun x member => ?_⟩
      rcases List.mem_append.mp member with inBack | inCode
      · exact quietBack x inBack
      · exact finalizeBlock_quiet (fun i low high => fused'.quiet low high)
          (finalized _ known) x inCode

/-- Whatever registers the instructions find, the flags at the branch are those of that
compare. -/
theorem Fused.final_flags (verified : F.Verified) (fused : Fused F split fusion size lhs imm)
    (finalized : ∀ b < F.numBlocks,
      finalizeBlock frameForm checks (run F).1 output b = some (code b))
    {done started : List (FinalInst Op)} (reaches : Reaches (run F).1 code split done)
    (inside : started <+: code split) {trace : List (Executed Op World)}
    (executed : trace.map Executed.inst = done ++ started) (f : Flags) :
    ∃ c before x after, F.inst c = .cmpImm size lhs imm ∧ trace = before ++ x :: after ∧
      x.inst = .main c (.cmpImm size (output.register c lhs) imm) ∧
      flagsAfterAll M f trace =
        .ofSub ((x.regs (output.register c lhs)).read size) (imm.bits size) := by
  obtain ⟨c, front, back, isCmp, rfl, quiet⟩ := fused.last_compare verified finalized reaches
  have quietStart : Quiet M started := fun x member =>
    finalizeBlock_quiet (fun i low high => fused.quiet low high) (finalized split fused.block) x
      (inside.subset member)
  rw [List.append_assoc, List.cons_append] at executed
  obtain ⟨before, rest, rfl, -, isRest⟩ := List.map_eq_append_iff.mp executed
  obtain ⟨x, after, rfl, isX, isAfter⟩ := List.map_eq_cons_iff.mp isRest
  refine ⟨c, before, x, after, isCmp, rfl, isX, ?_⟩
  have quietAfter : Quiet M (after.map Executed.inst) := by
    rw [isAfter]
    intro y member
    rcases List.mem_append.mp member with inBack | inStart
    · exact quiet y inBack
    · exact quietStart y inStart
  have first : flagsAfterAll M f (before ++ x :: after) =
      flagsAfterAll M (x.flagsAfter M (flagsAfterAll M f before)) after := flagsAfterAll_append
  rw [first, flagsAfterAll_quiet quietAfter]
  simp only [Executed.flagsAfter, isX, MInst.flagsAfter]

end Last

/-- Wherever the pass removes the compare of a block: the block is entered from one block
only, which ends with the same compare; the function runs as before, with the flags of the
compare in every state that stands in the block; and in the final code, with the moves of
any allocation, the flags in the block are those that such a compare left. -/
theorem run_keepsFlags {F : VCodeContainer Op} (verified : F.Verified) {split : MirBlock}
    (block : split < F.numBlocks) {fusion : Fusion}
    (found : findFusion (runBlocks F split).1 split = some fusion) :
    ∃ size lhs imm, F.blockPreds split = [fusion.pred] ∧
      F.inst fusion.cmp = .cmpImm size lhs imm ∧ F.inst fusion.predCmp = .cmpImm size lhs imm ∧
      (∀ (M : Target Op World) ρ f w n,
        (run F).1.run M n ((run F).1.initial ρ f w) = F.run M n (F.initial ρ f w) ∧
        ∀ s, (run F).1.run M n ((run F).1.initial ρ f w) = some s → s.block = split →
          s.flags = .ofSub ((s.regs lhs).read size) (imm.bits size)) ∧
      ∀ (M : Target Op World) frameForm checks output code,
        (∀ b < F.numBlocks, finalizeBlock frameForm checks (run F).1 output b = some (code b)) →
        ∀ done started trace, Reaches (run F).1 code split done → started <+: code split →
          trace.map Executed.inst = done ++ started → ∀ f,
          ∃ c before x after, F.inst c = .cmpImm size lhs imm ∧ trace = before ++ x :: after ∧
            x.inst = .main c (.cmpImm size (output.register c lhs) imm) ∧
            flagsAfterAll M f trace =
              .ofSub ((x.regs (output.register c lhs)).read size) (imm.bits size) := by
  obtain ⟨size, lhs, imm, fused⟩ := Fused.of_find block found
  have preds : F.blockPreds split = [fusion.pred] := by
    rw [← (sameTables_runBlocks F split).blockPreds]
    exact fused.fuses.preds
  refine ⟨size, lhs, imm, preds, fused.original.1, fused.original.2, fun M ρ f w n => ⟨?_, ?_⟩, ?_⟩
  · exact (runBlocks_run verified (Nat.le_refl F.numBlocks)).2 M ρ f w n
  · exact fun s ran here => fused.flags verified ran here
  · intro M frameForm checks output code finalized done started trace reaches inside executed f
    exact fused.final_flags verified finalized reaches inside executed f

/-- A register is compared with four in three blocks, the last of them before the one it
is entered from. -/
def decisionTree : VCodeContainer Value where
  insts := [.other 7 [] [PeepholeCombine.int 0],
    .cmpImm .size32 (PeepholeCombine.int 0) ⟨4, false, by decide⟩,
      .condBr .eq (.block 1) (.block 3),
    .ret, .cmpImm .size32 (PeepholeCombine.int 0) ⟨4, false, by decide⟩,
    .condBr .gt (.block 4) (.block 5),
    .cmpImm .size32 (PeepholeCombine.int 0) ⟨4, false, by decide⟩,
    .condBr .lt (.block 6) (.block 2), .ret, .ret, .ret]
  blockRange := [(0, 3), (3, 4), (4, 6), (6, 8), (8, 9), (9, 10), (10, 11)]
  blockSucc := [[1, 3], [], [4, 5], [6, 2], [], [], []]
  blockPred := [[], [0], [3], [0], [2], [2], [3]]
  params := [[], [], [], [], [], [], []]
  branchArgs := [[[], []], [], [[], []], [[], []], [], [], []]

/-- One move, at the start of the last of the three blocks. -/
def oneMove : Output where
  edits := [(8, ⟨.reg 3, .reg 4, .int, none⟩)]
  register := fun _ _ => intReg 3
  vregTypes := fun _ => none
  spillSlotOffset := fun _ => none
  outgoingArgsSize := 0

/-- Two of the compares go, and the branch of the last block reads the flags of the first. -/
theorem run_keepsFlags_tree : decisionTree.Verified ∧ (run decisionTree).2 = 2 ∧
    ∃ code : MirBlock → List (FinalInst Value),
      (∀ b < 7, finalizeBlock (fun _ => none) true (run decisionTree).1 oneMove b =
      some (code b)) ∧
      ∀ (trace : List (Executed Value Unit)) (f : Flags),
        trace.map Executed.inst = code 0 ++ code 3 ++ code 2 →
        ∃ x ∈ trace, ∃ size imm, flagsAfterAll PeepholeCombine.constants f trace =
          .ofSub ((x.regs (intReg 3)).read size) (Imm12.bits imm size) := by
  have verified : decisionTree.Verified :=
    verified_of_checked [[0], [0, 1], [0, 2, 3], [0, 3], [0, 2, 3, 4], [0, 2, 3, 5], [0, 3, 6]]
      (by decide) (by decide) (by decide)
  have found : findFusion (runBlocks decisionTree 2).1 2 = some ⟨4, 5, 3, 6, 7⟩ := by decide
  have finalized : ∀ b < 7,
    (finalizeBlock (fun _ => none) true (run decisionTree).1 oneMove b).isSome =
      true := by decide
  let code : MirBlock → List (FinalInst Value) := fun b =>
    (finalizeBlock (fun _ => none) true (run decisionTree).1 oneMove b).getD []
  have isCode : ∀ b < 7, finalizeBlock (fun _ => none) true (run decisionTree).1 oneMove b =
      some (code b) := by
    intro b known
    obtain ⟨list, isList⟩ := Option.isSome_iff_exists.mp (finalized b known)
    rw [isList]
    exact congrArg some (by rw [show code b = list from congrArg (·.getD []) isList])
  have edges : (run decisionTree).1.Edge 0 3 ∧ (run decisionTree).1.Edge 3 2 := by
    constructor <;> exact List.mem_of_elem_eq_true (by decide)
  have reaches : Reaches (run decisionTree).1 code 2 (([] ++ code 0) ++ code 3) :=
    .edge (.edge .entry edges.1) edges.2
  refine ⟨verified, by decide, code, isCode, fun trace f executed => ?_⟩
  obtain ⟨size, lhs, imm, -, -, -, -, final⟩ :=
    @run_keepsFlags _ Unit _ verified _ (by decide) _ found
  obtain ⟨c, before, x, after, -, rfl, -, flags⟩ := final PeepholeCombine.constants
    (fun _ => none) true
    oneMove code isCode _ (code 2) trace reaches List.prefix_rfl executed f
  exact ⟨x, by simp, size, imm, flags⟩

end AnonCompiler.Mir.ChainFusion
