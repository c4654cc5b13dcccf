import AnonCompiler.Ir.Ssa
import AnonCompiler.Opt.EdgeRewriter
import AnonCompiler.Opt.LoopAnalysis

/-!
# Loop preheaders

`Loop::get_preheader` of `opt/analysis_passes/loop_analysis.rs` and `ensure_preheader` of
`opt/utils/preheader.rs`.  A new block before the header takes the arguments of every edge
that enters the loop from outside and hands its parameters on to the header.  A loop at
the entry of the function is left alone.
-/

set_option autoImplicit false

namespace AnonCompiler

namespace Ir.FunctionData

/-- `insert_bb_before`: a block without instructions. -/
def insertBlockBefore (F : FunctionData) (before bb : BasicBlock) : FunctionData :=
  { F with layout := F.layout.flatMap fun entry =>
      if entry.1 = before then [(bb, []), entry] else [entry] }

section InsertBlock

variable {F : FunctionData} {before bb b : BasicBlock}

theorem insertBlockBefore_blockInsts (differ : b ≠ bb) :
    (F.insertBlockBefore before bb).blockInsts b = F.blockInsts b := by
  unfold blockInsts insertBlockBefore
  simp only
  generalize F.layout = layout
  induction layout with
  | nil => rfl
  | cons first rest ih =>
    have other : (b == bb) = false := beq_eq_false_iff_ne.mpr differ
    rw [List.flatMap_cons]
    by_cases here : first.1 = before
    · rw [if_pos here, List.cons_append, List.cons_append, List.nil_append, List.lookup_cons, other,
        List.lookup_cons, List.lookup_cons, ih]
    · rw [if_neg here, List.cons_append, List.nil_append, List.lookup_cons, List.lookup_cons, ih]

theorem insertBlockBefore_blockInsts_self (fresh : bb ∉ F.blocks) (placed : before ∈ F.blocks) :
    (F.insertBlockBefore before bb).blockInsts bb = some [] := by
  unfold blockInsts insertBlockBefore blocks at *
  simp only at *
  generalize F.layout = layout at *
  induction layout with
  | nil => simp at placed
  | cons first rest ih =>
    obtain ⟨b, insts⟩ := first
    rw [List.map_cons, List.mem_cons, not_or] at fresh
    rw [List.flatMap_cons]
    by_cases here : b = before
    · simp [here]
    · have later : before ∈ rest.map Prod.fst :=
        (List.mem_cons.mp placed).resolve_left fun same => here same.symm
      rw [if_neg here, List.cons_append, List.nil_append, List.lookup_cons,
        beq_eq_false_iff_ne.mpr fresh.1]
      exact ih fresh.2 later

theorem insertBlockBefore_entryBlock (notEntry : F.entryBlock ≠ some before) :
    (F.insertBlockBefore before bb).entryBlock = F.entryBlock := by
  unfold entryBlock insertBlockBefore at *
  simp only at *
  cases layout : F.layout with
  | nil => rfl
  | cons first rest =>
    have differ : first.1 ≠ before := fun same => notEntry (by simp [layout, same])
    simp [differ]

theorem mem_insertBlockBefore_blocks (placed : before ∈ F.blocks) :
    b ∈ (F.insertBlockBefore before bb).blocks ↔ b = bb ∨ b ∈ F.blocks := by
  simp only [blocks, insertBlockBefore, List.mem_map, List.mem_flatMap] at *
  constructor
  · rintro ⟨entry, ⟨old, member, inside⟩, rfl⟩
    split at inside
    · rcases List.mem_cons.mp inside with rfl | inside
      · exact .inl rfl
      · obtain rfl := List.mem_singleton.mp inside
        exact .inr ⟨entry, member, rfl⟩
    · obtain rfl := List.mem_singleton.mp inside
      exact .inr ⟨entry, member, rfl⟩
  · rintro (rfl | ⟨entry, member, rfl⟩)
    · obtain ⟨entry, member, same⟩ := placed
      exact ⟨(b, []), ⟨entry, member, by simp [same]⟩, rfl⟩
    · refine ⟨entry, ⟨entry, member, ?_⟩, rfl⟩
      split <;> simp

end InsertBlock

section NewParams

variable {F : FunctionData} {ty : Ty} {tys : List Ty} {index : Nat}

@[simp] theorem newParams_nextInst : (F.newParams index tys).nextInst =
  F.nextInst + tys.length := by
  induction tys generalizing F index with
  | nil => rfl
  | cons ty tys ih =>
    rw [newParams, ih, newInst_nextInst, List.length_cons]
    omega

@[simp] theorem newParams_layout : (F.newParams index tys).layout = F.layout := by
  induction tys generalizing F index with
  | nil => rfl
  | cons ty tys ih => exact ih

@[simp] theorem newParams_blockParams : (F.newParams index tys).blockParams = F.blockParams := by
  induction tys generalizing F index with
  | nil => rfl
  | cons ty tys ih => exact ih

theorem newParams_insts_old {x : Nat} (old : x < F.nextInst ∨ F.nextInst + tys.length ≤ x) :
    (F.newParams index tys).insts x = F.insts x := by
  induction tys generalizing F index with
  | nil => rfl
  | cons ty tys ih =>
    rw [List.length_cons] at old
    have differ : x ≠ F.nextInst := by
      rintro rfl
      omega
    rw [newParams, ih (by rw [newInst_nextInst]; omega)]
    exact Function.update_of_ne differ _ _

theorem newParams_insts_new {i : Nat} (isTy : tys[i]? = some ty) :
    (F.newParams index tys).insts (F.nextInst + i) = some ⟨ty, .blockArgRef (index + i)⟩ := by
  induction tys generalizing F index i with
  | nil => simp at isTy
  | cons first tys ih =>
    cases i with
    | zero =>
      obtain rfl := Option.some.inj isTy
      have old : F.nextInst < (F.newInst ⟨first, .blockArgRef index⟩).nextInst :=
        Nat.lt_succ_self _
      exact (newParams_insts_old (.inl old)).trans (Function.update_self ..)
    | succ i =>
      rw [List.getElem?_cons_succ] at isTy
      have found : ((F.newInst ⟨first, .blockArgRef index⟩).newParams (index + 1) tys).insts
          (F.nextInst + 1 + i) = some ⟨ty, .blockArgRef (index + 1 + i)⟩ := ih isTy
      rw [newParams, ← Nat.add_assoc, Nat.add_right_comm, found, Nat.add_right_comm index]
      rfl

@[simp] theorem newBlock_layout : (F.newBlock tys).layout = F.layout := newParams_layout

end NewParams

end Ir.FunctionData

namespace Opt

open Ir Lib

/-! ## The program -/

def Loop.getPreheader (l : Loop) (G : CFG) : Option BasicBlock :=
  match (G.predecessorsOf l.header).filter fun bb => !l.contains bb with
  | [candidate] =>
    match G.successors candidate with
    | [_] => some candidate
    | _ => none
  | _ => none

inductive EnsurePreheader where
  | existing (bb : BasicBlock)
  | created (bb : BasicBlock)
deriving DecidableEq, Repr

def EnsurePreheader.block : EnsurePreheader → BasicBlock
  | existing bb => bb
  | created bb => bb

/-- The edges that enter the loop. -/
def outsideEdges (F : FunctionData) (G : CFG) (l : Loop) : List LogicalEdge :=
  (G.incomingEdges F l.header).filter fun edge => !l.contains edge.source

/-- The function with the preheader, which no edge enters yet. -/
def addPreheader (F : FunctionData) (header : BasicBlock) (parameterTypes : List Ty) :
    FunctionData :=
  let preheader := F.nextBlock
  let F := (F.newBlock parameterTypes).insertBlockBefore header preheader
  (F.newInst ⟨.unit, .jump header (F.blockParams preheader)⟩).insertInst preheader F.nextInst

/-- The function afterwards, with the answer; a panic has no result. -/
def ensurePreheader (F : FunctionData) (G : CFG) (l : Loop) :
    Option (FunctionData × Option EnsurePreheader) :=
  if l.header = G.entry then some (F, none)
  else
    match l.getPreheader G with
    | some preheader => some (F, some (.existing preheader))
    | none =>
      let edges := outsideEdges F G l
      if edges = [] then some (F, none)
      else do
        let parameterTypes ← (F.blockParams l.header).mapM fun parameter =>
          (F.insts parameter).map InstData.ty
        let preheader := F.nextBlock
        let F := addPreheader F l.header parameterTypes
        let rewrites ← edges.foldlM
          (fun rewrites edge => LogicalEdgeRewriter.retarget F rewrites edge preheader edge.args)
          LogicalEdgeRewriter.new
        let (F, changed) := rewrites.apply F
        if changed then some (F, some (.created preheader)) else none

/-! ## What is built -/

/-- The parameters of the new block. -/
def preheaderParams (F : FunctionData) (header : BasicBlock) : List Inst :=
  (List.range (F.blockParams header).length).map (F.nextInst + ·)

/-- The jump to the header. -/
def preheaderJump (F : FunctionData) (header : BasicBlock) : Inst :=
  F.nextInst + (F.blockParams header).length

def IsNew (F : FunctionData) (header : BasicBlock) (x : Nat) : Prop :=
  F.nextInst ≤ x ∧ x ≤ preheaderJump F header

/-- The header's edges go to the new block. -/
def divert (header n target : BasicBlock) : BasicBlock := if target = header then n else target

/-- `F'` is `F` with a preheader, which the terminators that `moves` names go to in place of
the header. -/
structure Preheaded (F F' : FunctionData) (header : BasicBlock) (moves : Inst → Bool) : Prop where
  insts : ∀ {x}, ¬ IsNew F header x → F'.insts x = (F.insts x).map fun data =>
    ⟨data.ty, data.kind.remapRefs id (if moves x then divert header F.nextBlock else id)⟩
  param : ∀ {i p}, (F.blockParams header)[i]? = some p → ∃ data index, F.insts p = some data ∧
    F'.insts (F.nextInst + i) = some ⟨data.ty, .blockArgRef index⟩
  jump : F'.insts (preheaderJump F header) = some ⟨.unit, .jump header (preheaderParams F header)⟩
  newParams : F'.blockParams F.nextBlock = preheaderParams F header
  oldParams : ∀ {bb}, bb ≠ F.nextBlock → F'.blockParams bb = F.blockParams bb
  newBlock : F'.blockInsts F.nextBlock = some [preheaderJump F header]
  oldBlock : ∀ {bb}, bb ≠ F.nextBlock → F'.blockInsts bb = F.blockInsts bb
  blocks : ∀ {bb}, bb ∈ F'.blocks ↔ bb = F.nextBlock ∨ bb ∈ F.blocks
  entry : F'.entryBlock = F.entryBlock

section Build

variable {P : Program} {F : FunctionData} {header : BasicBlock} {tys : List Ty}

theorem addPreheader_insts_old {x : Nat} (old : x < F.nextInst ∨ F.nextInst + tys.length < x) :
    (addPreheader F header tys).insts x = F.insts x := by
  have before : x ≠ F.nextInst + tys.length := by
    rintro rfl
    omega
  have kept : (F.newParams 0 tys).insts x = F.insts x :=
    FunctionData.newParams_insts_old (old.imp_right Nat.le_of_lt)
  simpa [addPreheader, FunctionData.insertInst, FunctionData.editBlock,
    FunctionData.insertBlockBefore, FunctionData.newBlock, Function.update_of_ne before] using kept

theorem addPreheader_insts_param {i : Nat} {ty : Ty} (isTy : tys[i]? = some ty) :
    (addPreheader F header tys).insts (F.nextInst + i) = some ⟨ty, .blockArgRef i⟩ := by
  have inside := (List.getElem?_eq_some_iff.mp isTy).1
  have before : F.nextInst + i ≠ F.nextInst + tys.length := (Nat.add_lt_add_left inside _).ne
  have found : (F.newParams 0 tys).insts (F.nextInst + i) = some ⟨ty, .blockArgRef (0 + i)⟩ :=
    FunctionData.newParams_insts_new isTy
  rw [Nat.zero_add] at found
  simpa [addPreheader, FunctionData.insertInst, FunctionData.editBlock,
    FunctionData.insertBlockBefore, FunctionData.newBlock, Function.update_of_ne before] using found

theorem addPreheader_insts_jump (F : FunctionData) (header : BasicBlock) (tys : List Ty) :
    (addPreheader F header tys).insts (F.nextInst + tys.length) =
    some ⟨.unit, .jump header ((List.range tys.length).map (F.nextInst + ·))⟩ := by
  simp [addPreheader, FunctionData.insertInst, FunctionData.editBlock,
    FunctionData.insertBlockBefore, FunctionData.newBlock]

theorem addPreheader_blockParams (header : BasicBlock) (tys : List Ty) (bb : BasicBlock) :
    (addPreheader F header tys).blockParams bb =
    if bb = F.nextBlock then (List.range tys.length).map (F.nextInst + ·) else F.blockParams
      bb := by
  by_cases isNew : bb = F.nextBlock
  · simp [addPreheader, FunctionData.insertInst, FunctionData.editBlock,
      FunctionData.insertBlockBefore, FunctionData.newBlock, isNew]
  · simp [addPreheader, FunctionData.insertInst, FunctionData.editBlock,
      FunctionData.insertBlockBefore, FunctionData.newBlock, isNew]

theorem addPreheader_blockInsts_of_ne {bb : BasicBlock} (old : bb ≠ F.nextBlock) :
    (addPreheader F header tys).blockInsts bb = F.blockInsts bb := by
  rw [addPreheader, FunctionData.insertInst, FunctionData.editBlock_blockInsts, if_neg old]
  refine (FunctionData.insertBlockBefore_blockInsts (F := F.newBlock tys) old).trans ?_
  rw [FunctionData.blockInsts, FunctionData.blockInsts, FunctionData.newBlock_layout]

theorem newBlock_blocks : (F.newBlock tys).blocks = F.blocks := by
  rw [FunctionData.blocks, FunctionData.blocks, FunctionData.newBlock_layout]

theorem addPreheader_blockInsts (fresh : F.nextBlock ∉ F.blocks) (placed : header ∈ F.blocks) :
    (addPreheader F header tys).blockInsts F.nextBlock = some [F.nextInst + tys.length] := by
  rw [addPreheader, FunctionData.insertInst, FunctionData.editBlock_blockInsts, if_pos rfl]
  have empty := FunctionData.insertBlockBefore_blockInsts_self (F := F.newBlock tys)
    (newBlock_blocks ▸ fresh) (newBlock_blocks ▸ placed)
  have isNext : ((F.newBlock tys).insertBlockBefore header F.nextBlock).nextInst =
      F.nextInst + tys.length := by
    simp [FunctionData.insertBlockBefore, FunctionData.newBlock]
  rw [isNext]
  exact congrArg (Option.map (· ++ [F.nextInst + tys.length])) empty

theorem addPreheader_blocks (placed : header ∈ F.blocks) {bb : BasicBlock} :
    bb ∈ (addPreheader F header tys).blocks ↔ bb = F.nextBlock ∨ bb ∈ F.blocks := by
  rw [addPreheader, FunctionData.insertInst, FunctionData.editBlock_blocks]
  have placed' : header ∈ (F.newBlock tys).blocks := by rwa [newBlock_blocks]
  refine (FunctionData.mem_insertBlockBefore_blocks placed').trans ?_
  rw [newBlock_blocks]

theorem addPreheader_entryBlock (notEntry : F.entryBlock ≠ some header) :
    (addPreheader F header tys).entryBlock = F.entryBlock := by
  have sameEntry : (F.newBlock tys).entryBlock = F.entryBlock := by
    rw [FunctionData.entryBlock, FunctionData.entryBlock, FunctionData.newBlock_layout]
  have inserted : ((F.newBlock tys).insertBlockBefore header F.nextBlock).entryBlock =
      (F.newBlock tys).entryBlock := FunctionData.insertBlockBefore_entryBlock
        (sameEntry ▸ notEntry)
  rw [← sameEntry, ← inserted]
  unfold addPreheader FunctionData.insertInst FunctionData.editBlock FunctionData.entryBlock
  simp only [FunctionData.newInst_layout, List.head?_map, Option.map_map]
  congr 1
  funext entry
  simp only [Function.comp_apply]
  split <;> rfl

end Build

/-! ## The edges that are moved -/

variable {F : FunctionData} {targets : List BasicBlock}

theorem CFG.eq_of_checkTargets {found : List BasicBlock}
    (h : CFG.checkTargets F targets = some found) : found = targets := by
  unfold CFG.checkTargets at h
  split at h
  · exact (Option.some.inj h).symm
  · cases h

theorem CFG.mem_blockSuccessors {bb v : BasicBlock} (h : CFG.blockSuccessors F bb = some targets) :
    v ∈ targets ↔ ∃ e ∈ F.outgoingEdges bb, e.target = v := by
  unfold CFG.blockSuccessors at h
  unfold FunctionData.outgoingEdges
  cases last : F.terminator bb with
  | none => simp [last] at h
  | some inst =>
    simp only [last, Option.bind_some] at h ⊢
    cases isKind : F.kind inst with
    | none => simp [isKind] at h
    | some kind =>
      rw [isKind] at h
      cases kind with
      | jump target args =>
        obtain rfl := CFG.eq_of_checkTargets h
        simp [eq_comm]
      | branch cond tTarget tArgs fTarget fArgs =>
        obtain rfl := CFG.eq_of_checkTargets h
        by_cases same : fTarget = tTarget
        · simp [same, eq_comm]
        · simp [same, eq_comm]
      | ret value =>
        cases h
        simp
      | tailCall callee args =>
        cases h
        simp
      | _ => cases h

section Moved

variable {F : FunctionData} {G : CFG} {l : Loop} {e : LogicalEdge} (built : G.Built F)

include built in
theorem mem_outsideEdges : e ∈ outsideEdges F G l ↔ e.source ∈ G.blocks ∧
    e ∈ F.outgoingEdges e.source ∧ e.target = l.header ∧ e.source ∉ l.body := by
  simp only [outsideEdges, CFG.incomingEdges, List.mem_filter, List.mem_flatMap,
    CFG.mem_predecessorsOf, Loop.contains, decide_eq_true_eq, Bool.not_eq_true',
    decide_eq_false_iff_not]
  constructor
  · rintro ⟨⟨bb, ⟨member, -⟩, leaves, isTarget⟩, outside⟩
    obtain ⟨rfl, -⟩ := terminator_of_edge leaves
    exact ⟨member, leaves, isTarget, outside⟩
  · rintro ⟨member, leaves, isTarget, outside⟩
    refine ⟨⟨e.source, ⟨member, ?_⟩, leaves, isTarget⟩, outside⟩
    exact (CFG.mem_blockSuccessors (built.successors _ member)).mpr ⟨e, leaves, isTarget⟩

/-- The terminators with an edge into the loop. -/
def movesOf (F : FunctionData) (G : CFG) (l : Loop) (inst : Inst) : Bool :=
  (outsideEdges F G l).any (·.terminator = inst)

include built

/-- Of a terminator outside the loop the arms to the header are moved. -/
theorem movedBy_outside {inst : Inst} (moves : e ∈ outsideEdges F G l) (here : e.terminator = inst)
    {e' : LogicalEdge} (leaves : e' ∈ F.outgoingEdges e.source) :
    movedBy (outsideEdges F G l) inst e'.arm = decide (e'.target = l.header) := by
  obtain ⟨member, isEdge, -, outside⟩ := (mem_outsideEdges built).mp moves
  have sameTerminator : e'.terminator = inst := by
    have first := (terminator_of_edge leaves).2
    rw [(terminator_of_edge isEdge).2] at first
    exact (Option.some.inj first).symm.trans here
  rw [Bool.eq_iff_iff, movedBy, List.any_eq_true, decide_eq_true_eq]
  constructor
  · rintro ⟨other, inside, same⟩
    rw [Bool.and_eq_true, decide_eq_true_eq, decide_eq_true_eq] at same
    obtain ⟨-, isOther, isTarget, -⟩ := (mem_outsideEdges built).mp inside
    have sameTarget := edge_target_eq leaves isOther (same.1.trans sameTerminator.symm) same.2
    exact sameTarget.symm.trans isTarget
  · intro isTarget
    have isSource := (terminator_of_edge leaves).1
    refine ⟨e', (mem_outsideEdges built).mpr ?_, by simp [sameTerminator]⟩
    rw [isSource]
    exact ⟨member, leaves, isTarget, outside⟩

/-- Moving the arms is exchanging the header. -/
theorem redirected_outside {inst : Inst} {kind : InstKind} (isKind : F.kind inst = some kind)
    (n : BasicBlock) : redirected (movedBy (outsideEdges F G l) inst) n kind =
      kind.remapRefs id (if movesOf F G l inst then divert l.header n else id) := by
  cases moves : movesOf F G l inst with
  | false =>
    rw [redirected_none (movedBy_none moves), if_neg Bool.false_ne_true, InstKind.remapRefs_id]
  | true =>
    obtain ⟨e, member, here⟩ := List.any_eq_true.mp moves
    have here : e.terminator = inst := of_decide_eq_true here
    obtain ⟨-, isEdge, -, -⟩ := (mem_outsideEdges built).mp member
    have arm : ∀ e' ∈ F.outgoingEdges e.source, movedBy (outsideEdges F G l) inst e'.arm =
        decide (e'.target = l.header) := fun _ leaves => movedBy_outside built member here leaves
    have isLast := (terminator_of_edge isEdge).2
    rw [here] at isLast
    rw [if_pos rfl]
    rcases kind_of_edge isEdge with ⟨isArm, isJump⟩ | ⟨cond, fTarget, fArgs, isArm, isBranch⟩ |
      ⟨cond, tTarget, tArgs, isArm, isBranch⟩
    · rw [here] at isJump
      cases isKind.symm.trans isJump
      have first := arm e isEdge
      rw [isArm] at first
      simp [redirected, InstKind.remapRefs, divert, first]
    · rw [here] at isBranch
      cases isKind.symm.trans isBranch
      have first := arm ⟨e.source, inst, .onTrue, e.target, e.args⟩
        (by simp [FunctionData.outgoingEdges, isLast, isKind])
      have second := arm ⟨e.source, inst, .onFalse, fTarget, fArgs⟩
        (by simp [FunctionData.outgoingEdges, isLast, isKind])
      simp [redirected, InstKind.remapRefs, divert, first, second]
    · rw [here] at isBranch
      cases isKind.symm.trans isBranch
      have first := arm ⟨e.source, inst, .onTrue, tTarget, tArgs⟩
        (by simp [FunctionData.outgoingEdges, isLast, isKind])
      have second := arm ⟨e.source, inst, .onFalse, e.target, e.args⟩
        (by simp [FunctionData.outgoingEdges, isLast, isKind])
      simp [redirected, InstKind.remapRefs, divert, first, second]

end Moved

/-! ## A preheader is built -/

section Create

variable {P : Program} {F : FunctionData} {G : CFG} {l : Loop} (wellFormed : F.WellFormed)

variable {e : LogicalEdge} {bb : BasicBlock}

include wellFormed in
theorem edge_lt (leaves : e ∈ F.outgoingEdges bb) :
    bb ∈ F.blocks ∧ e.terminator < F.nextInst ∧ ∃ data, F.insts e.terminator = some data ∧
      data.kind.isTerminator = true := by
  obtain ⟨insts, block⟩ := FunctionData.exists_of_edge leaves
  obtain ⟨data, found, isTerminator⟩ : ∃ data, F.insts e.terminator = some data ∧
      data.kind.isTerminator = true := by
    rcases kind_of_edge leaves with ⟨-, isKind⟩ | ⟨_, _, _, -, isKind⟩ | ⟨_, _, _, -, isKind⟩ <;>
    · obtain ⟨data, found, same⟩ := Option.map_eq_some_iff.mp isKind
      exact ⟨data, found, by simp [same, InstKind.isTerminator]⟩
  exact ⟨FunctionData.mem_blocks block, wellFormed.inst_lt (by simp [found]), data, found,
    isTerminator⟩

include wellFormed in
/-- The new block does not change the edges there are. -/
theorem mem_outgoingEdges_addPreheader (header : BasicBlock) (tys : List Ty)
    (leaves : e ∈ F.outgoingEdges bb) : e ∈ (addPreheader F header tys).outgoingEdges bb := by
  obtain ⟨placed, old, -⟩ := edge_lt wellFormed leaves
  have isLast := (terminator_of_edge leaves).2
  have sameLast : (addPreheader F header tys).terminator bb = F.terminator bb := by
    rw [FunctionData.terminator, addPreheader_blockInsts_of_ne (wellFormed.block_lt placed).ne,
      FunctionData.terminator]
  have sameKind : (addPreheader F header tys).kind e.terminator = F.kind e.terminator := by
    rw [FunctionData.kind, addPreheader_insts_old (.inl old), FunctionData.kind]
  rw [FunctionData.outgoingEdges, sameLast, isLast]
  rw [FunctionData.outgoingEdges, isLast] at leaves
  simp only [sameKind] at leaves ⊢
  exact leaves

include wellFormed in
/-- Every loop with an edge from outside gets a preheader. -/
theorem ensurePreheader_created (types : F.WellTyped P) (built : G.Built F)
    (isEntry : F.entryBlock = some G.entry) (placed : l.header ∈ F.blocks)
    (notEntry : l.header ≠ G.entry) (missing : l.getPreheader G = none)
    (enters : outsideEdges F G l ≠ []) :
    ∃ F', ensurePreheader F G l = some (F', some (.created F.nextBlock)) ∧
      Preheaded F F' l.header (movesOf F G l) := by
  have fresh : F.nextBlock ∉ F.blocks := fun member => (wellFormed.block_lt member).ne rfl
  obtain ⟨tys, isTys⟩ : ∃ tys, (F.blockParams l.header).mapM
      (fun parameter => (F.insts parameter).map InstData.ty) = some tys := by
    refine mapM_isSome fun p isParam => ?_
    obtain ⟨data, index, found, -⟩ := wellFormed.blockParam isParam
    exact ⟨data.ty, by rw [found]; rfl⟩
  have each := forall₂_of_mapM isTys
  have length : tys.length = (F.blockParams l.header).length := each.length_eq.symm
  have edges : ∀ e ∈ outsideEdges F G l, ∃ bb, e ∈ F.outgoingEdges bb := fun e member =>
    ⟨_, ((mem_outsideEdges built).mp member).2.1⟩
  obtain ⟨r, ran, moved⟩ := retarget_all (n := F.nextBlock) fun e member =>
    (edges e member).imp fun bb leaves =>
      mem_outgoingEdges_addPreheader wellFormed l.header tys leaves
  have unit : ∀ e ∈ outsideEdges F G l, ∀ {data},
      (addPreheader F l.header tys).insts e.terminator = some data → data.ty = .unit := by
    intro e member data found
    obtain ⟨bb, leaves⟩ := edges e member
    obtain ⟨-, old, data', found', isTerminator⟩ := edge_lt wellFormed leaves
    rw [addPreheader_insts_old (.inl old)] at found
    cases found.symm.trans found'
    exact types.terminator found' isTerminator
  have changed : (r.apply (addPreheader F l.header tys)).2 = true := by
    obtain ⟨e, member⟩ := List.exists_mem_of_ne_nil _ enters
    obtain ⟨bb, leaves⟩ := edges e member
    exact moved.changed (mem_outgoingEdges_addPreheader wellFormed _ _ leaves) member
  have insts := moved.apply unit
  refine ⟨(r.apply (addPreheader F l.header tys)).1, ?_, ?_⟩
  · simp only [ensurePreheader, if_neg notEntry, missing, if_neg enters, isTys, Option.bind_eq_bind,
      Option.bind_some, ran, changed, if_true]
  · refine ⟨fun {x} old => ?_, fun {i p} isParam => ?_, ?_, ?_, fun {bb} old => ?_, ?_,
      fun {bb} old => ?_,
      fun {bb} => ?_, ?_⟩
    · have apart : x < F.nextInst ∨ F.nextInst + tys.length < x := by
        rw [IsNew, preheaderJump, ← length] at old
        omega
      rw [insts x, addPreheader_insts_old apart]
      cases found : F.insts x with
      | none => rfl
      | some data =>
        have isKind : F.kind x = some data.kind := by rw [FunctionData.kind, found]; rfl
        rw [Option.map_some, Option.map_some, redirected_outside built isKind]
    · obtain ⟨data, index, found, -⟩ := wellFormed.blockParam (List.mem_of_getElem? isParam)
      have inside : i < tys.length := by
        rw [length]
        exact (List.getElem?_eq_some_iff.mp isParam).1
      have isTy : tys[i]? = some data.ty := by
        have at_i := each.get (List.getElem?_eq_some_iff.mp isParam).1 inside
        rw [List.get_eq_getElem, List.get_eq_getElem, (List.getElem?_eq_some_iff.mp isParam).2,
          found] at at_i
        rw [List.getElem?_eq_getElem inside, ← Option.some.inj at_i]
      refine ⟨data, i, found, ?_⟩
      rw [insts, addPreheader_insts_param isTy]
      rfl
    · have untouched :
          ∀ arm, movedBy (outsideEdges F G l) (preheaderJump F l.header) arm = false := by
        refine movedBy_none (List.any_eq_false.mpr fun e member => ?_)
        obtain ⟨bb, leaves⟩ := edges e member
        have old := (edge_lt wellFormed leaves).2.1
        have differ : e.terminator ≠ preheaderJump F l.header :=
          (old.trans_le (Nat.le_add_right ..)).ne
        simp [differ]
      have isJump := addPreheader_insts_jump F l.header tys
      rw [length] at isJump
      rw [preheaderJump] at untouched ⊢
      rw [insts, isJump, Option.map_some, redirected_none untouched]
      rfl
    · exact (addPreheader_blockParams l.header tys _).trans (by rw [if_pos rfl, length]; rfl)
    · exact (addPreheader_blockParams l.header tys _).trans (if_neg old)
    · exact (addPreheader_blockInsts fresh placed).trans (by rw [length]; rfl)
    · exact addPreheader_blockInsts_of_ne old
    · exact addPreheader_blocks placed
    · exact addPreheader_entryBlock fun same =>
        notEntry (Option.some.inj (isEntry.symm.trans same)).symm

end Create

end Opt

end AnonCompiler
