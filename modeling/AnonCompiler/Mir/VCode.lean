import AnonCompiler.Lib.Dominance
import AnonCompiler.Mir.Aarch64

/-!
# Lowered functions and how they run

The container of `taki_mir/src/vcode.rs`: one flat list of instructions, the range
of every block in it, and the control-flow tables beside it.  The arguments a
branch passes to the parameters of its target live in these tables and in no
instruction.

A state of a run stands before an instruction of a block.  A branch assigns the
arguments of its edge to the parameters of the target at once; the flags stay as
they are across it.  `Verified` collects what `verify` and `verify_strict_ssa`
check of a container before register allocation, as far as it is used.
-/

set_option autoImplicit false

namespace AnonCompiler.Mir

structure VCodeContainer (Op : Type) where
  insts : List (MInst Op)
  /-- Start and end of every block in `insts`. -/
  blockRange : List (Nat × Nat)
  blockSucc : List (List MirBlock)
  blockPred : List (List MirBlock)
  params : List (List Reg)
  /-- For every block, the argument list of each of its successors. -/
  branchArgs : List (List (List Reg))
deriving DecidableEq, Repr

namespace VCodeContainer

variable {Op World : Type}

def numBlocks (F : VCodeContainer Op) : Nat := F.blockRange.length

/-- The instruction at an index.  Every access of a verified function is in range. -/
def inst (F : VCodeContainer Op) (i : Nat) : MInst Op := F.insts.getD i .removed

def setInst (F : VCodeContainer Op) (i : Nat) (inst : MInst Op) : VCodeContainer Op :=
  { F with insts := F.insts.set i inst }

def start (F : VCodeContainer Op) (b : MirBlock) : Nat := (F.blockRange.getD b (0, 0)).1

def stop (F : VCodeContainer Op) (b : MirBlock) : Nat := (F.blockRange.getD b (0, 0)).2

def blockSuccs (F : VCodeContainer Op) (b : MirBlock) : List MirBlock := F.blockSucc.getD b []

def blockPreds (F : VCodeContainer Op) (b : MirBlock) : List MirBlock := F.blockPred.getD b []

def blockParams (F : VCodeContainer Op) (b : MirBlock) : List Reg := F.params.getD b []

/-- The arguments of one edge. -/
def branchBlockparams (F : VCodeContainer Op) (b : MirBlock) (succ : Nat) : List Reg :=
  (F.branchArgs.getD b []).getD succ []

/-- All branch arguments of the function. -/
def branchBlockArgs (F : VCodeContainer Op) : List Reg := F.branchArgs.flatten.flatten

variable {F : VCodeContainer Op} {k : Nat} {r : Reg} {ρ : Reg → Value} {dsts : List Reg}

theorem mem_branchBlockArgs {b : MirBlock} (isArg : r ∈ F.branchBlockparams b k) :
    r ∈ F.branchBlockArgs := by
  simp only [branchBlockparams, List.getD_eq_getElem?_getD] at isArg
  cases block : F.branchArgs[b]? with
  | none => simp [block] at isArg
  | some edges =>
    cases edge : edges[k]? with
    | none => simp [block, edge] at isArg
    | some args =>
      simp only [block, edge, Option.getD_some] at isArg
      exact List.mem_flatten.2 ⟨args, List.mem_flatten.2 ⟨edges, List.mem_of_getElem? block,
        List.mem_of_getElem? edge⟩, isArg⟩

section SetInst

variable (F : VCodeContainer Op) (i : Nat) (x : MInst Op)

theorem inst_setInst (k : Nat) :
    (F.setInst i x).inst k = if k = i ∧ i < F.insts.length then x else F.inst k := by
  simp only [inst, setInst, List.getD_eq_getElem?_getD, List.getElem?_set]
  by_cases h : i = k
  · subst h
    by_cases bound : i < F.insts.length <;> simp [bound]
  · simp [h, Ne.symm h]

@[simp] theorem length_setInst : (F.setInst i x).insts.length = F.insts.length := by simp [setInst]

@[simp] theorem start_setInst : (F.setInst i x).start = F.start := rfl

@[simp] theorem stop_setInst : (F.setInst i x).stop = F.stop := rfl

@[simp] theorem blockPreds_setInst : (F.setInst i x).blockPreds = F.blockPreds := rfl

@[simp] theorem blockParams_setInst : (F.setInst i x).blockParams = F.blockParams := rfl

@[simp] theorem branchBlockparams_setInst :
    (F.setInst i x).branchBlockparams = F.branchBlockparams := rfl

end SetInst

theorem inst_of_le {i : Nat} (out : F.insts.length ≤ i) : F.inst i = .removed := by
  simp [inst, List.getD_eq_getElem?_getD, List.getElem?_eq_none out]

/-- Two functions that differ in instructions only. -/
structure SameTables (F G : VCodeContainer Op) : Prop where
  length : G.insts.length = F.insts.length
  blockRange : G.blockRange = F.blockRange
  blockSucc : G.blockSucc = F.blockSucc
  blockPred : G.blockPred = F.blockPred
  params : G.params = F.params
  branchArgs : G.branchArgs = F.branchArgs

namespace SameTables

variable {F G H : VCodeContainer Op}

theorem refl (F : VCodeContainer Op) : SameTables F F := ⟨rfl, rfl, rfl, rfl, rfl, rfl⟩

theorem trans (first : SameTables F G) (second : SameTables G H) : SameTables F H where
  length := second.length.trans first.length
  blockRange := second.blockRange.trans first.blockRange
  blockSucc := second.blockSucc.trans first.blockSucc
  blockPred := second.blockPred.trans first.blockPred
  params := second.params.trans first.params
  branchArgs := second.branchArgs.trans first.branchArgs

theorem setInst (F : VCodeContainer Op) (i : Nat) (x : MInst Op) : SameTables F (F.setInst i x) :=
  ⟨by simp, rfl, rfl, rfl, rfl, rfl⟩

section

variable (h : SameTables F G)
include h

theorem start (b : MirBlock) : G.start b = F.start b := by
  simp [VCodeContainer.start, h.blockRange]

theorem stop (b : MirBlock) : G.stop b = F.stop b := by
  simp [VCodeContainer.stop, h.blockRange]

theorem numBlocks : G.numBlocks = F.numBlocks := by
  simp [VCodeContainer.numBlocks, h.blockRange]

theorem blockPreds (b : MirBlock) : G.blockPreds b = F.blockPreds b := by
  simp [VCodeContainer.blockPreds, h.blockPred]

theorem blockParams (b : MirBlock) : G.blockParams b = F.blockParams b := by
  simp [VCodeContainer.blockParams, h.params]

theorem branchBlockparams (b : MirBlock) (k : Nat) :
    G.branchBlockparams b k = F.branchBlockparams b k := by
  simp [VCodeContainer.branchBlockparams, h.branchArgs]

theorem branchBlockArgs : G.branchBlockArgs = F.branchBlockArgs := by
  simp [VCodeContainer.branchBlockArgs, h.branchArgs]

end

end SameTables

/-! ## Runs -/

structure State (World : Type) where
  block : MirBlock
  pc : Nat
  regs : Reg → Value
  flags : Flags
  world : World

/-- Assign values to registers, all at once. -/
def assign (ρ : Reg → Value) : List Reg → List Value → Reg → Value
  | dst :: dsts, v :: vs => fun r => if r = dst then v else assign ρ dsts vs r
  | _, _ => ρ

theorem assign_congr {ρ' : Reg → Value} (same : ρ' r = ρ r) (dsts : List Reg)
    (values : List Value) : assign ρ' dsts values r = assign ρ dsts values r := by
  induction dsts generalizing values with
  | nil => simpa [assign] using same
  | cons dst dsts ih =>
    cases values with
    | nil => simpa [assign] using same
    | cons v values => simp only [assign, ih]

theorem assign_of_not_mem (other : r ∉ dsts) (values : List Value) :
    assign ρ dsts values r = ρ r := by
  induction dsts generalizing values with
  | nil => rfl
  | cons dst dsts ih =>
    rw [List.mem_cons, not_or] at other
    cases values with
    | nil => rfl
    | cons v values => simp only [assign, if_neg other.1, ih other.2]

/-- A parameter receives the argument at its first position. -/
theorem assign_idxOf? {values : List Value} {v : Value} (position : dsts.idxOf? r = some k)
    (passed : values[k]? = some v) : assign ρ dsts values r = v := by
  induction dsts generalizing values k with
  | nil => cases position
  | cons dst dsts ih =>
    rw [List.idxOf?_cons] at position
    cases values with
    | nil => cases passed
    | cons u values =>
      by_cases here : dst = r
      · subst here
        simp only [beq_self_eq_true, if_true, Option.some.injEq] at position
        subst position
        simpa [assign] using passed
      · rw [if_neg (by simpa using here)] at position
        obtain ⟨m, position, rfl⟩ := Option.map_eq_some_iff.1 position
        simp only [assign, if_neg (Ne.symm here)]
        exact ih ‹_› (by simpa using passed)

/-- Enter the target of a branch. -/
def goto (F : VCodeContainer Op) (s : State World) : Label × Nat → Option (State World)
  | (.block b, succ) =>
    some { s with
      block := b
      pc := F.start b
      regs := assign s.regs (F.blockParams b) ((F.branchBlockparams s.block succ).map s.regs) }
  | (.external _, _) => none

/-- One instruction.  A return, a tail call and a trap have no next state. -/
def step (M : Target Op World) (F : VCodeContainer Op) (s : State World) : Option (State World) :=
  let inst := F.inst s.pc
  if s.pc < F.stop s.block then
    if inst.isTerm then (inst.branch s.regs s.flags).bind (F.goto s)
    else (inst.results M s.regs s.flags s.world).map fun (values, world) =>
      { s with
        pc := s.pc + 1
        regs := assign s.regs inst.defs values
        flags := inst.flagsAfter M s.regs s.flags s.world
        world := world }
  else none

def run (M : Target Op World) (F : VCodeContainer Op) : Nat → State World → Option (State World)
  | 0, s => some s
  | count + 1, s => (F.run M count s).bind (F.step M)

/-- A run begins at the first block with any registers, flags and world. -/
def initial (F : VCodeContainer Op) (ρ : Reg → Value) (f : Flags) (w : World) : State World :=
  ⟨0, F.start 0, ρ, f, w⟩

/-! ## Verified functions -/

def InBlock (F : VCodeContainer Op) (b : MirBlock) (i : Nat) : Prop :=
  b < F.numBlocks ∧ F.start b ≤ i ∧ i < F.stop b

def Edge (F : VCodeContainer Op) (a b : MirBlock) : Prop := b ∈ F.blockSuccs a

/-- A register has a definition that reaches index `i` of block `b` on every path. -/
def DominatingDef (F : VCodeContainer Op) (r : Reg) (b : MirBlock) (i : Nat) : Prop :=
  (∃ d, r ∈ F.blockParams d ∧ Lib.Dominates F.Edge 0 d b) ∨
  (∃ d j, F.InBlock d j ∧ r ∈ (F.inst j).defs ∧ (d = b → j < i) ∧ Lib.Dominates F.Edge 0 d b)

/-- The virtual registers defined in a function, once for each definition. -/
def allDefs (F : VCodeContainer Op) : List Reg :=
  F.params.flatten ++ (F.insts.flatMap MInst.defs).filter Reg.isVirtual

/-- Blocks are disjoint ranges of instructions, each with one terminator at its end. -/
structure Layout (F : VCodeContainer Op) : Prop where
  covered : ∀ i, i < F.insts.length → ∃ b, F.InBlock b i
  disjoint : ∀ i b c, F.InBlock b i → F.InBlock c i → b = c
  bounded : ∀ b, b < F.numBlocks → F.start b < F.stop b ∧ F.stop b ≤ F.insts.length
  terminated : ∀ b, b < F.numBlocks → (F.inst (F.stop b - 1)).isTerm = true
  straight : ∀ b i, F.InBlock b i → i + 1 < F.stop b → (F.inst i).isTerm = false

structure Verified (F : VCodeContainer Op) : Prop extends Layout F where
  /-- The successors of a block are the targets of its terminator. -/
  succs : ∀ b, b < F.numBlocks →
    (F.inst (F.stop b - 1)).targets = (F.blockSuccs b).map Label.block
  preds : ∀ b c, b < F.numBlocks → c ∈ F.blockSuccs b → c < F.numBlocks ∧ b ∈ F.blockPreds c
  predSuccs : ∀ b c, b < F.numBlocks → c ∈ F.blockPreds b → c < F.numBlocks ∧ b ∈ F.blockSuccs c
  arity : ∀ b k c, (F.blockSuccs b)[k]? = some c →
    (F.branchBlockparams b k).length = (F.blockParams c).length
  /-- The first block is laid out first, and no value flows into it. -/
  entry : 0 < F.numBlocks ∧ F.start 0 = 0 ∧ F.blockParams 0 = []
  /-- Every virtual register has one definition, and it dominates its uses. -/
  unique : F.allDefs.Nodup
  virtualParams : ∀ b, ∀ r ∈ F.blockParams b, r.isVirtual = true
  uses : ∀ b i, F.InBlock b i → ∀ r ∈ (F.inst i).uses, r.isVirtual = true → F.DominatingDef r b i
  edgeUses : ∀ b k, b < F.numBlocks → ∀ r ∈ F.branchBlockparams b k,
    F.DominatingDef r b (F.stop b - 1)
  /-- Integer compares read virtual registers before register allocation. -/
  compares : ∀ i size lhs imm, F.inst i = .cmpImm size lhs imm → lhs.isVirtual = true

namespace Layout

variable {F : VCodeContainer Op}

variable {b : MirBlock} {i : Nat}

/-- A rewriting that keeps the terminators keeps the layout. -/
theorem of_sameTables {G : VCodeContainer Op} (layout : F.Layout) (tables : SameTables F G)
    (terms : ∀ k, (G.inst k).isTerm = (F.inst k).isTerm) : G.Layout := by
  have inBlock : ∀ b i, G.InBlock b i ↔ F.InBlock b i := by
    intro b i
    simp only [InBlock, tables.numBlocks, tables.start, tables.stop]
  constructor
  · intro i bound
    obtain ⟨b, inside⟩ := layout.covered i (by rwa [tables.length] at bound)
    exact ⟨b, (inBlock b i).2 inside⟩
  · intro i b c first second
    exact layout.disjoint i b c ((inBlock b i).1 first) ((inBlock c i).1 second)
  · intro b block
    rw [tables.start, tables.stop, tables.length]
    exact layout.bounded b (by rwa [tables.numBlocks] at block)
  · intro b block
    rw [terms, tables.stop]
    exact layout.terminated b (by rwa [tables.numBlocks] at block)
  · intro b i inside before
    rw [terms]
    exact layout.straight b i ((inBlock b i).1 inside) (by rwa [tables.stop] at before)

variable (layout : F.Layout)
include layout

theorem inBlock_lt (inside : F.InBlock b i) : i < F.insts.length := by
  have ⟨_, bound⟩ := layout.bounded b inside.1
  have := inside.2.2
  omega

/-- An instruction that is no terminator is followed by one of its own block. -/
theorem inBlock_succ (inside : F.InBlock b i) (plain : (F.inst i).isTerm = false) :
    F.InBlock b (i + 1) := by
  obtain ⟨block, low, high⟩ := inside
  refine ⟨block, by omega, ?_⟩
  by_contra last
  have here : i = F.stop b - 1 := by omega
  have ends := layout.terminated b block
  rw [← here, plain] at ends
  exact Bool.false_ne_true ends

/-- A terminator is the last instruction of its block. -/
theorem eq_last (inside : F.InBlock b i) (term : (F.inst i).isTerm = true) : i = F.stop b - 1 := by
  by_contra early
  have := inside.2.2
  have plain := layout.straight b i inside (by omega)
  rw [term] at plain
  exact Bool.false_ne_true plain.symm

/-- The instruction before the first one of a block ends another block. -/
theorem isTerm_before (block : b < F.numBlocks) (first : F.start b = i + 1) :
    (F.inst i).isTerm = true := by
  have ⟨nonempty, bound⟩ := layout.bounded b block
  obtain ⟨c, inside⟩ := layout.covered i (by omega)
  by_contra plain
  have next := layout.inBlock_succ inside (by simpa using plain)
  have same := layout.disjoint _ _ _ next ⟨block, by omega, by omega⟩
  have := inside.2.1
  subst same
  omega

end Layout

/-! ## Checking a function -/

section Checking

variable (dom : List (List MirBlock)) (F : VCodeContainer Op)

def LayoutChecked : Prop :=
  (∀ i < F.insts.length, ∃ b < F.numBlocks, F.start b ≤ i ∧ i < F.stop b) ∧
  (∀ b < F.numBlocks, ∀ c < F.numBlocks, b = c ∨ F.stop b ≤ F.start c ∨ F.stop c ≤ F.start b) ∧
  (∀ b < F.numBlocks, F.start b < F.stop b ∧ F.stop b ≤ F.insts.length) ∧
  (∀ b < F.numBlocks, (F.inst (F.stop b - 1)).isTerm = true ∧
    ∀ i ∈ List.range' (F.start b) (F.stop b - 1 - F.start b), (F.inst i).isTerm = false)

instance : Decidable F.LayoutChecked := by
  unfold LayoutChecked
  infer_instance

/-- The control-flow tables.  `dom` lists for every block blocks said to dominate it;
it has to be closed under predecessors, as the fixed point of `verify_strict_ssa`
is. -/
def TablesChecked : Prop :=
  (∀ b < F.numBlocks, (F.inst (F.stop b - 1)).targets = (F.blockSuccs b).map Label.block ∧
    (∀ c ∈ F.blockSuccs b, c < F.numBlocks ∧ b ∈ F.blockPreds c) ∧
    (∀ c ∈ F.blockPreds b, c < F.numBlocks ∧ b ∈ F.blockSuccs c) ∧
    (∀ d ∈ dom.getD b [], d < F.numBlocks ∧
      (d = b ∨ b ≠ 0 ∧ ∀ p ∈ F.blockPreds b, d ∈ dom.getD p []))) ∧
  (F.blockSucc.length = F.numBlocks ∧ F.params.length = F.numBlocks) ∧
  (∀ b < F.numBlocks, ∀ k < (F.blockSuccs b).length, ∀ c ∈ (F.blockSuccs b)[k]?,
    (F.branchBlockparams b k).length = (F.blockParams c).length) ∧
  0 < F.numBlocks ∧ F.start 0 = 0 ∧ F.blockParams 0 = []

instance : Decidable (F.TablesChecked dom) := by
  unfold TablesChecked
  infer_instance

def DefinedIn (r : Reg) (b i : Nat) : Prop :=
  ∃ d ∈ dom.getD b [], r ∈ F.blockParams d ∨
    ∃ j ∈ List.range' (F.start d) (F.stop d - F.start d), r ∈ (F.inst j).defs ∧ (d = b → j < i)

instance (r : Reg) (b i : Nat) : Decidable (F.DefinedIn dom r b i) := by
  unfold DefinedIn
  infer_instance

def cmpVirtual : MInst Op → Bool
  | .cmpImm _ lhs _ => lhs.isVirtual
  | _ => true

def SsaChecked : Prop :=
  F.allDefs.Nodup ∧
  (∀ b < F.numBlocks, ∀ r ∈ F.blockParams b, r.isVirtual = true) ∧
  (∀ b < F.numBlocks, ∀ i ∈ List.range' (F.start b) (F.stop b - F.start b),
    ∀ r ∈ (F.inst i).uses, r.isVirtual = true → F.DefinedIn dom r b i) ∧
  (∀ b < F.numBlocks, ∀ args ∈ F.branchArgs.getD b [], ∀ r ∈ args,
    F.DefinedIn dom r b (F.stop b - 1)) ∧
  ∀ x ∈ F.insts, cmpVirtual x = true

instance : Decidable (F.SsaChecked dom) := by
  unfold SsaChecked
  infer_instance

end Checking

section Checked

variable {dom : List (List MirBlock)} {F : VCodeContainer Op}

theorem LayoutChecked.layout (checked : F.LayoutChecked) : F.Layout := by
  obtain ⟨covered, disjoint, bounded, terminated⟩ := checked
  constructor
  · intro i bound
    obtain ⟨b, block, low, high⟩ := covered i bound
    exact ⟨b, block, low, high⟩
  · intro i b c first second
    have ⟨block, low, high⟩ := first
    have ⟨block', low', high'⟩ := second
    obtain same | apart | apart := disjoint b block c block'
    · exact same
    · omega
    · omega
  · exact bounded
  · exact fun b block => (terminated b block).1
  · intro b i inside before
    have ⟨block, low, high⟩ := inside
    exact (terminated b block).2 i (List.mem_range'_1.2 ⟨low, by omega⟩)

/-- A table that is closed under predecessors lists dominators only. -/
theorem TablesChecked.dominates (checked : F.TablesChecked dom) {b d : MirBlock}
    (listed : d ∈ dom.getD b []) : Lib.Dominates F.Edge 0 d b := by
  rintro ⟨notRoot, path⟩
  have reaches : b < F.numBlocks ∧ d ∉ dom.getD b [] := by
    clear listed
    induction path with
    | refl =>
      refine ⟨checked.2.2.2.1, fun listed => ?_⟩
      obtain same | ⟨other, -⟩ := ((checked.1 0 checked.2.2.2.1).2.2.2 d listed).2
      · exact notRoot same.symm
      · exact other rfl
    | tail _ last ih =>
      obtain ⟨edge, differs⟩ := last
      have known := (checked.1 _ ih.1).2.1 _ edge
      refine ⟨known.1, fun listed => ?_⟩
      obtain same | ⟨-, preds⟩ := ((checked.1 _ known.1).2.2.2 d listed).2
      · exact differs same.symm
      · exact ih.2 (preds _ known.2)
  exact reaches.2 listed

theorem DefinedIn.dominatingDef (checked : F.TablesChecked dom) {r : Reg} {b i : Nat}
    (block : b < F.numBlocks) (defined : F.DefinedIn dom r b i) : F.DominatingDef r b i := by
  obtain ⟨d, listed, isParam | ⟨j, inside, isDef, before⟩⟩ := defined
  · exact .inl ⟨d, isParam, checked.dominates listed⟩
  · have known := ((checked.1 b block).2.2.2 d listed).1
    obtain ⟨low, high⟩ := List.mem_range'_1.1 inside
    exact .inr ⟨d, j, ⟨known, low, by omega⟩, isDef, before, checked.dominates listed⟩

theorem verified_of_checked (dom : List (List MirBlock)) (layout : F.LayoutChecked)
    (tables : F.TablesChecked dom) (ssa : F.SsaChecked dom) : F.Verified := by
  have noBlock : ∀ {α : Type} (l : List (List α)) (b : Nat), l.length = F.numBlocks →
      ¬ b < F.numBlocks → l.getD b [] = [] := by
    intro α l b length out
    simp [List.getD_eq_getElem?_getD, List.getElem?_eq_none (by omega : l.length ≤ b)]
  refine { layout.layout with
    succs := fun b block => (tables.1 b block).1
    preds := fun b c block => (tables.1 b block).2.1 c
    predSuccs := fun b c block => (tables.1 b block).2.2.1 c
    arity := ?_
    entry := tables.2.2.2
    unique := ssa.1
    virtualParams := ?_
    uses := ?_
    edgeUses := ?_
    compares := ?_ }
  · intro b k c position
    by_cases block : b < F.numBlocks
    · obtain ⟨bound, -⟩ := List.getElem?_eq_some_iff.1 position
      exact tables.2.2.1 b block k bound c position
    · rw [blockSuccs, noBlock F.blockSucc b tables.2.1.1 block] at position
      cases position
  · intro b r isParam
    by_cases block : b < F.numBlocks
    · exact ssa.2.1 b block r isParam
    · rw [blockParams, noBlock F.params b tables.2.1.2 block] at isParam
      cases isParam
  · intro b i inside r isUse isVirtual
    have ⟨block, low, high⟩ := inside
    exact (ssa.2.2.1 b block i (List.mem_range'_1.2 ⟨low, by omega⟩) r isUse
      isVirtual).dominatingDef
      tables block
  · intro b k block r isArg
    have listed : F.branchBlockparams b k ∈ F.branchArgs.getD b [] := by
      simp only [branchBlockparams] at isArg ⊢
      generalize F.branchArgs.getD b [] = edges at isArg ⊢
      rw [List.getD_eq_getElem?_getD] at isArg ⊢
      cases edge : edges[k]? with
      | none => simp [edge] at isArg
      | some args => exact List.mem_of_getElem? edge
    exact (ssa.2.2.2.1 b block _ listed r isArg).dominatingDef tables block
  · intro i size lhs imm compare
    have bound : i < F.insts.length := by
      by_contra out
      rw [inst_of_le (by omega)] at compare
      cases compare
    have listed : F.inst i ∈ F.insts := by
      simp [inst, List.getD_eq_getElem?_getD, List.getElem?_eq_getElem bound]
    have isVirtual := ssa.2.2.2.2 _ listed
    rwa [compare] at isVirtual

end Checked

end VCodeContainer

end AnonCompiler.Mir
