import AnonCompiler.Ir.Syntax
import Mathlib.Tactic

/-!
# The arena and its reverse map

The mutators of `raana_ir/src/ir` as they keep `used_by` by hand: every instruction and
every block has the set of instructions that name it, and the layout has a map from
instructions to blocks beside the instruction lists of the blocks.  A call that panics has
no result.

A function sees the global arena of its program through a context; a function on its own
has none, which is the case of an empty global arena.  An instruction stands in at
most one place of the layout as long as the map agrees with the lists, so its place is
found by search here, where the source keeps an index.
-/

set_option autoImplicit false

namespace AnonCompiler.Ir

/-- The data of an instruction with the instructions that use it. -/
structure UsedInst where
  data : InstData
  usedBy : Finset Inst

structure BlockData where
  params : List Inst
  usedBy : Finset Inst

/-- The blocks in order, the instructions of each, and the block of each instruction. -/
structure Layout where
  bbs : List BasicBlock
  insts : BasicBlock → List Inst
  parent : Inst → Option BasicBlock

namespace Layout

def empty : Layout := ⟨[], fun _ => [], fun _ => none⟩

def containsBb (L : Layout) (bb : BasicBlock) : Bool := bb ∈ L.bbs

/-- Add a block without instructions at a place that `place` gives. -/
def addBb (L : Layout) (bb : BasicBlock) (place : List BasicBlock → List BasicBlock) : Layout :=
  { L with bbs := place L.bbs, insts := Function.update L.insts bb [] }

def pushBbBack (L : Layout) (bb : BasicBlock) : Option Layout :=
  if L.containsBb bb then none else some (L.addBb bb (· ++ [bb]))

def insertBbAfter (L : Layout) (after bb : BasicBlock) : Option Layout :=
  if L.containsBb bb || !L.containsBb after then none
  else some (L.addBb bb (List.flatMap fun b => if b = after then [b, bb] else [b]))

def insertBbBefore (L : Layout) (before bb : BasicBlock) : Option Layout :=
  if L.containsBb bb || !L.containsBb before then none
  else some (L.addBb bb (List.flatMap fun b => if b = before then [bb, b] else [b]))

/-- Make the block the parent of the instruction, and edit the instructions of the block. -/
def addInst (L : Layout) (bb : BasicBlock) (inst : Inst) (place : List Inst → List Inst) : Layout :=
  { L with
    insts := Function.update L.insts bb (place (L.insts bb))
    parent := Function.update L.parent inst (some bb) }

def insertInst (L : Layout) (bb : BasicBlock) (inst : Inst) : Option Layout :=
  if !L.containsBb bb || (L.parent inst).isSome then none else some
    (L.addInst bb inst (· ++ [inst]))

def insertBeforeTerminator (L : Layout) (bb : BasicBlock) (inst : Inst) : Option Layout :=
  if !L.containsBb bb || (L.parent inst).isSome then none
  else some (L.addInst bb inst fun insts => insts.dropLast ++ inst :: insts.getLast?.toList)

/-- Whether the instruction is in the layout already is not checked. -/
def insertInstBefore (L : Layout) (before inst : Inst) : Option Layout :=
  match L.parent before with
  | none => none
  | some bb =>
    if L.containsBb bb && before ∈ L.insts bb then
      some (L.addInst bb inst fun insts =>
        insts.takeWhile (· ≠ before) ++ inst :: insts.dropWhile (· ≠ before))
    else none

def removeInst (L : Layout) (bb : BasicBlock) (inst : Inst) : Option Layout :=
  if L.parent inst = some bb && L.containsBb bb && inst ∈ L.insts bb then
    some { L with
      insts := Function.update L.insts bb ((L.insts bb).erase inst)
      parent := Function.update L.parent inst none }
  else none

def removeBasicblock (L : Layout) (bb : BasicBlock) : Option Layout :=
  if L.containsBb bb then
    some { L with
      bbs := L.bbs.filter (· ≠ bb)
      parent := fun inst => if inst ∈ L.insts bb then none else L.parent inst }
  else none

end Layout

/-- A function with the global arena of its program. -/
structure ArenaState where
  insts : Inst → Option UsedInst
  nextInst : Nat
  blocks : BasicBlock → Option BlockData
  nextBlock : Nat
  globals : Inst → Option UsedInst
  nextGlobal : Nat
  layout : Layout

namespace ArenaState

/-- `FunctionData::new`, in a program with the given global arena. -/
def empty (globals : Inst → Option UsedInst) (nextGlobal : Nat) : ArenaState where
  insts := fun _ => none
  nextInst := 1
  blocks := fun _ => none
  nextBlock := 1
  globals := globals
  nextGlobal := nextGlobal
  layout := .empty

variable (s : ArenaState)

def instData (inst : Inst) : Option UsedInst :=
  if inst.isGlobal then s.globals inst else s.insts inst

def setInst (inst : Inst) (data : Option UsedInst) : ArenaState :=
  if inst.isGlobal then { s with globals := Function.update s.globals inst data }
  else { s with insts := Function.update s.insts inst data }

def setBlock (bb : BasicBlock) (data : BlockData) : ArenaState :=
  { s with blocks := Function.update s.blocks bb (some data) }

/-- `inst_data_mut(inst).used_by_mut()`, edited. -/
def editUsers (f : Finset Inst → Finset Inst) (inst : Inst) : Option ArenaState :=
  (s.instData inst).map fun used => s.setInst inst (some { used with usedBy := f used.usedBy })

/-- `bb_data_mut(bb).used_by_mut()`, edited. -/
def editBlockUsers (f : Finset Inst → Finset Inst) (bb : BasicBlock) : Option ArenaState :=
  (s.blocks bb).map fun block => s.setBlock bb { block with usedBy := f block.usedBy }

def editAllUsers (f : Finset Inst → Finset Inst) : List Inst → ArenaState → Option ArenaState
  | [], s => some s
  | inst :: rest, s => (s.editUsers f inst).bind (editAllUsers f rest)

def editAllBlockUsers (f : Finset Inst → Finset Inst) :
    List BasicBlock → ArenaState → Option ArenaState
  | [], s => some s
  | bb :: rest, s => (s.editBlockUsers f bb).bind (editAllBlockUsers f rest)

/-- Edit the users of all operands and of all targets. -/
def editUsage (f : Finset Inst → Finset Inst) (kind : InstKind) : Option ArenaState :=
  (editAllUsers f kind.instUsage s).bind (editAllBlockUsers f kind.bbUsage)

/-- Handles are 32 bits wide and not zero. -/
def nextHandle (handle : Nat) : Nat := (handle + 1) % 2 ^ 32

/-- Take the next handle for data that nothing uses. -/
def putInst (data : InstData) : ArenaState :=
  { s with
    insts := Function.update s.insts s.nextInst (some ⟨data, ∅⟩)
    nextInst := nextHandle s.nextInst }

/-- The new instruction's handle is `s.nextInst`. -/
def allocLocalInst (data : InstData) : Option ArenaState :=
  if s.nextInst = 0 then none else (s.putInst data).editUsage (insert s.nextInst) data.kind

/-- A program has no local arena of its own. -/
def allocGlobalInst (data : InstData) : Option ArenaState :=
  if s.nextGlobal = 0 || data.kind.instUsage.any fun used => !Inst.isGlobal used then none
  else
    editAllUsers (insert s.nextGlobal) data.kind.instUsage
      { s with
        globals := Function.update s.globals s.nextGlobal (some ⟨data, ∅⟩)
        nextGlobal := nextHandle s.nextGlobal }

/-- One `BlockArgRef` for each parameter type, with the handles. -/
def allocParams (index : Nat) : List Ty → ArenaState → Option (ArenaState × List Inst)
  | [], s => some (s, [])
  | ty :: rest, s =>
    (s.allocLocalInst ⟨ty, .blockArgRef index⟩).bind fun t =>
      (allocParams (index + 1) rest t).map fun more => (more.1, s.nextInst :: more.2)

/-- `insert_bb`; the new block's handle is `s.nextBlock`. -/
def allocBasicBlock (params : List Inst) : Option ArenaState :=
  if s.nextBlock = 0 then none
  else some { s.setBlock s.nextBlock ⟨params, ∅⟩ with nextBlock := nextHandle s.nextBlock }

def basicBlock (paramsTy : List Ty) : Option ArenaState :=
  if Ty.unit ∈ paramsTy then none
  else (allocParams 0 paramsTy s).bind fun result => result.1.allocBasicBlock result.2

def addParam (bb : BasicBlock) (ty : Ty) : Option ArenaState :=
  (s.blocks bb).bind fun block =>
    (s.allocLocalInst ⟨ty, .blockArgRef (block.params.length + 1)⟩).bind fun t =>
      (t.blocks bb).map fun later =>
        t.setBlock bb { later with params := later.params ++ [s.nextInst] }

/-- `ReplaceBuilder::insert_inst`: the users stay, the operands and targets change. -/
def replaceInstWith (inst : Inst) (data : InstData) : Option ArenaState :=
  (s.instData inst).bind fun old =>
    ((s.setInst inst none).editUsage (·.erase inst) old.data.kind).bind fun t =>
      (t.editUsage (insert inst) data.kind).map fun t' => t'.setInst inst (some ⟨data, old.usedBy⟩)

/-- `Arena::remove_inst`. -/
def removeInst (inst : Inst) : Option ArenaState :=
  (s.instData inst).bind fun old =>
    if old.usedBy = ∅ then
      (s.editUsage (·.erase inst) old.data.kind).map fun t => t.setInst inst none
    else none

def hasInstData (inst : Inst) : Bool := !inst.isGlobal && (s.insts inst).isSome

def detachOperands (inst : Inst) : List Inst → ArenaState → Option ArenaState
  | [], s => some s
  | used :: rest, s =>
    if s.hasInstData used then (s.editUsers (·.erase inst) used).bind (detachOperands inst rest)
    else detachOperands inst rest s

/-- Targets outside the layout are passed over. -/
def detachTargets (inst : Inst) : List BasicBlock → ArenaState → Option ArenaState
  | [], s => some s
  | used :: rest, s =>
    if s.layout.containsBb used then
      (s.editBlockUsers (·.erase inst) used).bind (detachTargets inst rest)
    else detachTargets inst rest s

/-- The data of a local instruction; a function cannot look up a global one. -/
def localData (inst : Inst) : Option UsedInst := if inst.isGlobal then none else s.insts inst

def detachInstUsage (inst : Inst) : Option ArenaState :=
  (s.localData inst).bind fun old =>
    (detachOperands inst old.data.kind.instUsage s).bind (detachTargets inst old.data.kind.bbUsage)

def removeInstData (inst : Inst) : Option ArenaState :=
  (s.localData inst).map fun _ => s.setInst inst none

def withLayout (layout : Option Layout) : Option ArenaState :=
  layout.map fun L => { s with layout := L }

def removeLayoutInst (bb : BasicBlock) (inst : Inst) : Option ArenaState :=
  (s.detachInstUsage inst).bind fun t =>
    (t.withLayout (t.layout.removeInst bb inst)).bind (removeInstData · inst)

def detachLayoutInst (bb : BasicBlock) (inst : Inst) : Option ArenaState :=
  (s.detachInstUsage inst).bind fun t => t.withLayout (t.layout.removeInst bb inst)

def removeOrphanInst (inst : Inst) : Option ArenaState :=
  (s.detachInstUsage inst).bind (removeInstData · inst)

def removeOrphanInsts : List Inst → ArenaState → Option ArenaState
  | [], s => some s
  | inst :: rest, s => (s.removeOrphanInst inst).bind (removeOrphanInsts rest)

def removeLayoutBasicblock (bb : BasicBlock) : Option ArenaState :=
  if s.layout.containsBb bb then
    (removeOrphanInsts (s.layout.insts bb) s).bind fun t =>
      t.withLayout (t.layout.removeBasicblock bb)
  else none

end ArenaState

/-- The calls that allocate, lay out, replace and remove. -/
inductive ArenaCall where
  | allocLocalInst (data : InstData)
  | allocGlobalInst (data : InstData)
  | basicBlock (paramsTy : List Ty)
  | addParam (bb : BasicBlock) (ty : Ty)
  | pushBbBack (bb : BasicBlock)
  | insertBbAfter (after bb : BasicBlock)
  | insertBbBefore (before bb : BasicBlock)
  | insertInst (bb : BasicBlock) (inst : Inst)
  | insertBeforeTerminator (bb : BasicBlock) (inst : Inst)
  | insertInstBefore (before inst : Inst)
  | replaceInstWith (inst : Inst) (data : InstData)
  | removeInst (inst : Inst)
  | removeLayoutInst (bb : BasicBlock) (inst : Inst)
  | detachLayoutInst (bb : BasicBlock) (inst : Inst)
  | removeOrphanInst (inst : Inst)
  | removeLayoutBasicblock (bb : BasicBlock)

/-- What a call does; a call that panics has no result. -/
def ArenaState.call (s : ArenaState) : ArenaCall → Option ArenaState
  | .allocLocalInst data => s.allocLocalInst data
  | .allocGlobalInst data => s.allocGlobalInst data
  | .basicBlock paramsTy => s.basicBlock paramsTy
  | .addParam bb ty => s.addParam bb ty
  | .pushBbBack bb => s.withLayout (s.layout.pushBbBack bb)
  | .insertBbAfter after bb => s.withLayout (s.layout.insertBbAfter after bb)
  | .insertBbBefore before bb => s.withLayout (s.layout.insertBbBefore before bb)
  | .insertInst bb inst => s.withLayout (s.layout.insertInst bb inst)
  | .insertBeforeTerminator bb inst => s.withLayout (s.layout.insertBeforeTerminator bb inst)
  | .insertInstBefore before inst => s.withLayout (s.layout.insertInstBefore before inst)
  | .replaceInstWith inst data => s.replaceInstWith inst data
  | .removeInst inst => s.removeInst inst
  | .removeLayoutInst bb inst => s.removeLayoutInst bb inst
  | .detachLayoutInst bb inst => s.detachLayoutInst bb inst
  | .removeOrphanInst inst => s.removeOrphanInst inst
  | .removeLayoutBasicblock bb => s.removeLayoutBasicblock bb

end AnonCompiler.Ir
