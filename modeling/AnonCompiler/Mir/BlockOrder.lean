import AnonCompiler.Lib.Enumeration
import AnonCompiler.Lib.TreeIntervals
import AnonCompiler.Mir.EmitBuffer
import AnonCompiler.Mir.Labels
import AnonCompiler.Opt.BlockNumbering

/-!
# The order of the lowered blocks

`BlockLoweringOrder` of `taki_mir/src/block_order.rs`.  The reachable blocks are
lowered in a preorder of the tree that `idom` finds, and an arm of a two-way branch
gets a block of its own when its target has several incoming edges or when values
travel along it.  The incoming edges of a block are counted in the layout of the
function; that a function enters its first block from outside is not counted.
-/

set_option autoImplicit false

namespace AnonCompiler.Mir

open Ir Lib Opt
open Labels (LoweredBlock)

structure BlockLoweringOrder where
  loweredOrder : List LoweredBlock
  loweredSuccIndices : List MirBlockIndex
  loweredSuccRanges : List (Option Inst × Nat × Nat)
  hlirBlockMap : BasicBlock → Option MirBlockIndex

namespace BlockLoweringOrder

/-! ## The order of the blocks -/

/-- Preorder, the children of a node by their position in reverse postorder. -/
def domtreeDfs (children : Nat → List Nat) (rpoIdx : Nat → Nat) : Nat → Nat → Option (List Nat) :=
  TreeIntervals.preorder fun node => (children node).insertionSort fun a b => rpoIdx a ≤ rpoIdx b

def domtreeRpo (F : FunctionData) (fuel : Nat) : Option (List BasicBlock) := do
  let cfg ← DomTree.Cfg.build F fuel
  let order ← domtreeDfs cfg.children cfg.rpo.idxOf fuel 0
  order.mapM fun id => cfg.alloc[id]?

/-! ## The edges of the layout -/

/-- The blocks that the last instruction of a block names; an empty block is a panic. -/
def bbUsage (F : FunctionData) (bb : BasicBlock) : Option (List BasicBlock) :=
  ((F.terminator bb).bind F.kind).map InstKind.bbUsage

/-- The successors of all blocks of the layout, in the order of the terminators. -/
def blockSucc (F : FunctionData) : Option (List (BasicBlock × List BasicBlock)) :=
  F.blocks.mapM fun bb => (bbUsage F bb).map fun succs => (bb, succs)

def inDegree (table : List (BasicBlock × List BasicBlock)) (bb : BasicBlock) : Nat :=
  (table.flatMap Prod.snd).count bb

/-- A successor other than the expected one is a panic. -/
def outgoingBlockArgs (F : FunctionData) (terminator : Inst) (succIdx : Nat)
    (expected : BasicBlock) : Option (List Inst) :=
  match F.kind terminator, succIdx with
  | some (.branch _ tTarget tArgs _ _), 0 => if tTarget = expected then some tArgs else none
  | some (.branch _ _ _ fTarget fArgs), 1 => if fTarget = expected then some fArgs else none
  | some (.jump target args), 0 => if target = expected then some args else none
  | _, _ => none

/-- The arguments of an edge have the number and the types of the parameters. -/
def sameTypes (P : Program) (F : FunctionData) (args params : List Inst) : Bool :=
  args.length = params.length &&
    (args.zip params).all fun pair =>
      (P.typeOf F pair.1).isSome && P.typeOf F pair.1 = P.typeOf F pair.2

/-! ## Lowering -/

/-- An arm of a terminator with several successors. -/
def lowerArm (P : Program) (F : FunctionData) (table : List (BasicBlock × List BasicBlock))
    (bb : BasicBlock) (succIdx : Nat) (orig : BasicBlock) : Option LoweredBlock := do
  let terminator ← F.terminator bb
  let args ← outgoingBlockArgs F terminator succIdx orig
  if sameTypes P F args (F.blockParams orig) then
    if inDegree table orig > 1 ∨ args ≠ [] ∨ F.blockParams orig ≠ [] then
      some (.edge bb orig succIdx)
    else some (.orig orig)
  else none

/-- What the successors of a block become. -/
def lowerSuccs (P : Program) (F : FunctionData) (table : List (BasicBlock × List BasicBlock))
    (bb : BasicBlock) : Option (List LoweredBlock) :=
  (table.lookup bb).bind fun succs =>
    if succs.length > 1 then succs.zipIdx.mapM fun entry => lowerArm P F table bb entry.2 entry.1
    else some (succs.map .orig)

def isEdge : LoweredBlock → Bool
  | .orig _ => false
  | .edge .. => true

/-- The lowered successors of each block, block by block. -/
def loweredSuccs (P : Program) (F : FunctionData) (rpo : List BasicBlock) :
    Option (List (BasicBlock × List LoweredBlock)) := do
  let table ← blockSucc F
  rpo.mapM fun bb => (lowerSuccs P F table bb).map fun lowered => (bb, lowered)

/-- A block comes before the blocks of its edges. -/
def orderOf (succs : List (BasicBlock × List LoweredBlock)) : List LoweredBlock :=
  succs.flatMap fun entry => .orig entry.1 :: entry.2.filter isEdge

/-- The index of each block, as the order grows. -/
def blockMap (map : BasicBlock → Option MirBlockIndex) :
    MirBlockIndex → List (BasicBlock × List LoweredBlock) → BasicBlock → Option MirBlockIndex
  | _, [] => map
  | index, entry :: rest =>
    blockMap (Function.update map entry.1 (some index))
      (index + 1 + (entry.2.filter isEdge).length) rest

/-- The last instruction of a block, if it is a branch or a jump. -/
def branchOf (F : FunctionData) (bb : BasicBlock) : Option Inst :=
  (F.terminator bb).filter fun last =>
    match F.kind last with
    | some (.jump ..) => true
    | some (.branch ..) => true
    | _ => false

/-- The instruction and the successors of a lowered block. -/
def succsOf (F : FunctionData) (succs : List (BasicBlock × List LoweredBlock))
    (index : LoweredBlock → Option MirBlockIndex) :
    LoweredBlock → Option (Option Inst × List MirBlockIndex)
  | .orig block =>
    (succs.lookup block).bind fun lowered =>
      (lowered.mapM index).map fun indices => (branchOf F block, indices)
  | .edge _ succ _ => (index (.orig succ)).map fun succIndex => (none, [succIndex])

/-- The order for blocks that come in some order. -/
def ofRpo (P : Program) (F : FunctionData) (rpo : List BasicBlock) : Option BlockLoweringOrder := do
  let succs ← loweredSuccs P F rpo
  let pieces ← (orderOf succs).mapM (succsOf F succs (indexMap (orderOf succs)))
  some
    { loweredOrder := orderOf succs
      loweredSuccIndices := (pieces.map Prod.snd).flatten
      loweredSuccRanges := (pieces.map Prod.fst).zip (ranges 0 (pieces.map Prod.snd))
      hlirBlockMap := blockMap (fun _ => none) 0 succs }

def new (P : Program) (F : FunctionData) (fuel : Nat) : Option BlockLoweringOrder :=
  (domtreeRpo F fuel).bind (ofRpo P F)

def loweredIndexForBlock (O : BlockLoweringOrder) (bb : BasicBlock) : Option MirBlockIndex :=
  O.hlirBlockMap bb

def succIndices (O : BlockLoweringOrder) (block : MirBlockIndex) :
    Option (Option Inst × List MirBlockIndex) :=
  O.loweredSuccRanges[block]?.map fun range =>
    (range.1, O.loweredSuccIndices.extract range.2.1 range.2.2)

/-! ## What the function has to satisfy -/

/-- The blocks end with terminators that pass on values of the types the targets declare. -/
structure Lowerable (P : Program) (F : FunctionData) : Prop where
  hasEntry : ∃ entry, F.entryBlock = some entry
  nodup : F.blocks.Nodup
  terminated : F.Terminated
  args : ∀ bb ∈ F.blocks, ∀ edge ∈ F.outgoingEdges bb,
    sameTypes P F edge.args (F.blockParams edge.target) = true

/-- The targets of a block's edges. -/
def targets (F : FunctionData) (bb : BasicBlock) : List BasicBlock :=
  (F.outgoingEdges bb).map LogicalEdge.target

/-! ## The blocks come once each -/

section Rpo

variable {F : FunctionData} {entry : BasicBlock} {fuel : Nat} {cfg : DomTree.Cfg}

/-- The children of a node in the order in which they are visited. -/
def sortedChildren (cfg : DomTree.Cfg) (node : Nat) : List Nat :=
  (cfg.children node).insertionSort fun a b => cfg.rpo.idxOf a ≤ cfg.rpo.idxOf b

variable (described : cfg.Describes F)

include described

theorem mem_sortedChildren {v c : Nat} : c ∈ sortedChildren cfg v ↔
    Reachable cfg.edge 0 c ∧ c ≠ 0 ∧ cfg.parent c = v := by
  rw [sortedChildren, List.mem_insertionSort, described.numbered.mem_children]

theorem childLists : TreeIntervals.ChildLists (sortedChildren cfg) id cfg.alloc.length where
  parent := by
    intro v v' c isChild isChild'
    obtain ⟨-, -, rfl⟩ := (mem_sortedChildren described).mp isChild
    exact ((mem_sortedChildren described).mp isChild').2.2
  lower := by
    intro v c isChild
    obtain ⟨reached, notRoot, rfl⟩ := (mem_sortedChildren described).mp isChild
    exact ⟨described.numbered.parent_lt reached notRoot, (described.reachable.mp reached).le⟩
  nodup := fun v =>
    (List.perm_insertionSort _ _).nodup_iff.mpr (described.numbered.ascending v).nodup

theorem under_iff_lt {id : Nat} :
    TreeIntervals.Under (sortedChildren cfg) 0 id ↔ id < cfg.alloc.length := by
  rw [← described.reachable]
  constructor
  · intro under
    rcases Relation.ReflTransGen.cases_tail under with rfl | ⟨p, -, step⟩
    · exact .refl
    · exact ((mem_sortedChildren described).mp step).1
  · intro reached
    induction id using Nat.strong_induction_on with
    | _ id ih =>
      by_cases isRoot : id = 0
      · rw [isRoot]
        exact .refl
      · have before := ih _ (described.numbered.parent_lt reached isRoot)
          (described.numbered.reachable_parent reached)
        exact before.tail ((mem_sortedChildren described).mpr ⟨reached, isRoot, rfl⟩)

end Rpo

theorem domtreeRpo_spec {F : FunctionData} (terminated : F.Terminated) {fuel : Nat}
    {rpo : List BasicBlock} (ran : domtreeRpo F fuel = some rpo) :
    rpo.Nodup ∧ ∀ bb, bb ∈ rpo ↔ bb ∈ F.reachable := by
  obtain ⟨cfg, built, rest⟩ := Option.bind_eq_some_iff.mp ran
  obtain ⟨order, walked, found⟩ := Option.bind_eq_some_iff.mp rest
  have described := DomTree.Cfg.describes built
  obtain ⟨nodup, mem_iff⟩ := TreeIntervals.preorder_spec (childLists described) walked
  have known : ∀ id ∈ order, cfg.alloc[id]? = some ((cfg.alloc[id]?).getD 0) := by
    intro id member
    have inside := (under_iff_lt described).mp ((mem_iff id).mp member)
    rw [List.getElem?_eq_getElem inside, Option.getD_some]
  rw [mapM_some known] at found
  cases found
  refine ⟨nodup.map_on ?_, fun bb => ?_⟩
  · intro id member id' member' same
    have inside := (under_iff_lt described).mp ((mem_iff id).mp member)
    have same' := (known id member).trans ((congrArg some same).trans (known id' member').symm)
    exact (List.getElem?_inj inside described.nodup).mp same'
  · rw [← DomTree.Cfg.mem_alloc terminated built, List.mem_map]
    constructor
    · rintro ⟨id, member, rfl⟩
      exact List.mem_of_getElem? (known id member)
    · intro member
      obtain ⟨id, isId⟩ := List.mem_iff_getElem?.mp member
      have inside := (List.getElem?_eq_some_iff.mp isId).1
      exact ⟨id, (mem_iff id).mpr ((under_iff_lt described).mpr inside),
        by rw [isId, Option.getD_some]⟩

theorem domtreeRpo_total {F : FunctionData} (terminated : F.Terminated)
    (hasEntry : ∃ entry, F.entryBlock = some entry) : ∃ fuel rpo, domtreeRpo F fuel = some rpo := by
  obtain ⟨entry, isEntry⟩ := hasEntry
  obtain ⟨least, total⟩ := DomTree.Cfg.build_total terminated isEntry
  obtain ⟨cfg, built⟩ := total (least + F.blocks.length + 1) (by omega)
  have described := DomTree.Cfg.describes built
  have few : cfg.alloc.length ≤ F.blocks.length := by
    refine (described.nodup.subperm fun bb member => ?_).length_le
    exact FunctionData.reachable_subset_blocks ((DomTree.Cfg.mem_alloc terminated built).mp member)
  have enough : cfg.alloc.length - id 0 < least + F.blocks.length + 1 := by
    simp only [id]
    omega
  obtain ⟨order, walked⟩ := Option.isSome_iff_exists.mp
    (TreeIntervals.preorder_total (childLists described) enough)
  have known : ∀ id ∈ order, ∃ bb, cfg.alloc[id]? = some bb := by
    intro id member
    have inside := (under_iff_lt described).mp
      (((TreeIntervals.preorder_spec (childLists described) walked).2 id).mp member)
    exact ⟨_, List.getElem?_eq_getElem inside⟩
  obtain ⟨rpo, found⟩ := mapM_isSome known
  exact ⟨least + F.blocks.length + 1, rpo, Option.bind_eq_some_iff.mpr
    ⟨cfg, built, Option.bind_eq_some_iff.mpr ⟨order, walked, found⟩⟩⟩

/-! ## The lowered successors -/

/-- The edges to a block in the layout. -/
def inDegreeOf (F : FunctionData) (bb : BasicBlock) : Nat := (F.blocks.flatMap (targets F)).count bb

/-- An arm gets a block of its own. -/
def Splits (F : FunctionData) (bb : BasicBlock) (edge : LogicalEdge) : Prop :=
  (F.outgoingEdges bb).length > 1 ∧
    (inDegreeOf F edge.target > 1 ∨ edge.args ≠ [] ∨ F.blockParams edge.target ≠ [])

instance (F : FunctionData) (bb : BasicBlock) (edge : LogicalEdge) : Decidable (Splits F bb edge) :=
  inferInstanceAs (Decidable (_ ∧ _))

def armOf (F : FunctionData) (bb : BasicBlock) (edge : LogicalEdge) (succIdx : Nat) :
    LoweredBlock :=
  if Splits F bb edge then .edge bb edge.target succIdx else .orig edge.target

def arms (F : FunctionData) (bb : BasicBlock) : List LoweredBlock :=
  (F.outgoingEdges bb).zipIdx.map fun entry => armOf F bb entry.1 entry.2

section Lowered

variable {P : Program} {F : FunctionData} {bb : BasicBlock} (lowerable : Lowerable P F)

/-- What a terminator is. -/
theorem outgoingEdges_cases (F : FunctionData) (bb : BasicBlock) :
    F.outgoingEdges bb = [] ∨
    (∃ inst target args, F.terminator bb = some inst ∧ F.kind inst = some (.jump target args) ∧
      F.outgoingEdges bb = [⟨bb, inst, .jump, target, args⟩]) ∨
    ∃ inst cond t tArgs f fArgs, F.terminator bb = some inst ∧
      F.kind inst = some (.branch cond t tArgs f fArgs) ∧
      F.outgoingEdges bb = [⟨bb, inst, .onTrue, t, tArgs⟩, ⟨bb, inst, .onFalse, f, fArgs⟩] := by
  unfold FunctionData.outgoingEdges
  split
  · exact .inl rfl
  · next inst isLast =>
      split
      · next target args isKind => exact .inr (.inl ⟨inst, target, args, isLast, isKind, rfl⟩)
      · next cond t tArgs f fArgs isKind =>
          exact .inr (.inr ⟨inst, cond, t, tArgs, f, fArgs, isLast, isKind, rfl⟩)
      · exact .inl rfl

include lowerable

theorem bbUsage_eq (placed : bb ∈ F.blocks) : bbUsage F bb = some (targets F bb) := by
  obtain ⟨inst, kind, isLast, isKind, isTerminator⟩ := lowerable.terminated.terminator bb placed
  rw [bbUsage, isLast, Option.bind_some, isKind, Option.map_some, targets,
    FunctionData.outgoingEdges, isLast]
  cases kind with
  | jump | branch | ret | tailCall => simp [InstKind.bbUsage, isKind]
  | _ => cases isTerminator

theorem blockSucc_eq : blockSucc F = some (F.blocks.map fun bb => (bb, targets F bb)) :=
  mapM_some fun bb placed => by rw [bbUsage_eq lowerable placed, Option.map_some]

omit lowerable in
theorem lookup_map {β : Type} {keys : List BasicBlock} {f : BasicBlock → β} (member : bb ∈ keys) :
    (keys.map fun key => (key, f key)).lookup bb = some (f bb) := by
  induction keys with
  | nil => cases member
  | cons key keys ih =>
    rw [List.map_cons, List.lookup_cons]
    by_cases same : bb = key
    · simp [same]
    · have differs : (bb == key) = false := by simpa using same
      rw [differs]
      exact ih ((List.mem_cons.mp member).resolve_left same)

theorem lowerArm_eq (placed : bb ∈ F.blocks) {edge : LogicalEdge} {k : Nat}
    (several : (F.outgoingEdges bb).length > 1) (atK : (F.outgoingEdges bb)[k]? = some edge) :
    lowerArm P F (F.blocks.map fun bb => (bb, targets F bb)) bb k edge.target =
      some (armOf F bb edge k) := by
  have leaves := List.mem_of_getElem? atK
  have same := lowerable.args bb placed edge leaves
  have degree : inDegree (F.blocks.map fun bb => (bb, targets F bb)) edge.target =
      inDegreeOf F edge.target := by
    rw [inDegree, inDegreeOf, List.flatMap_map]
  have found : ∃ inst, F.terminator bb = some inst ∧
      outgoingBlockArgs F inst k edge.target = some edge.args := by
    rcases outgoingEdges_cases F bb with none | ⟨inst, target, args, -, -, single⟩ |
      ⟨inst, cond, t, tArgs, f, fArgs, isLast, isKind, both⟩
    · rw [none] at leaves
      cases leaves
    · rw [single] at several
      exact absurd several (by simp)
    · refine ⟨inst, isLast, ?_⟩
      rw [both] at atK
      match k with
      | 0 =>
        cases atK
        simp [outgoingBlockArgs, isKind]
      | 1 =>
        cases atK
        simp [outgoingBlockArgs, isKind]
      | k + 2 => cases atK
  obtain ⟨inst, isLast, isArgs⟩ := found
  have splits : Splits F bb edge ↔
      inDegreeOf F edge.target > 1 ∨ edge.args ≠ [] ∨ F.blockParams edge.target ≠ [] :=
    and_iff_right several
  rw [lowerArm, isLast]
  simp only [Option.bind_eq_bind, Option.bind_some, isArgs, same, if_true, degree, armOf, ← splits]
  split <;> rfl

theorem lowerSuccs_eq (placed : bb ∈ F.blocks) :
    lowerSuccs P F (F.blocks.map fun bb => (bb, targets F bb)) bb = some (arms F bb) := by
  rw [lowerSuccs, lookup_map placed, Option.bind_some, targets, List.length_map]
  split
  · next several =>
      have each : ∀ entry ∈ (F.outgoingEdges bb).zipIdx,
          lowerArm P F (F.blocks.map fun bb => (bb, targets F bb)) bb entry.2 entry.1.target =
            some (armOf F bb entry.1 entry.2) := by
        rintro ⟨edge, k⟩ member
        exact lowerArm_eq lowerable placed several (List.mk_mem_zipIdx_iff_getElem?.mp member)
      rw [List.zipIdx_map, List.mapM_map]
      exact mapM_some each
  · next single =>
      have unsplit : ∀ edge k, armOf F bb edge k = .orig edge.target :=
        fun edge k => if_neg fun splits => single splits.1
      simp only [arms, unsplit, List.map_map]
      congr 1
      conv_lhs => rw [← List.zipIdx_map_fst 0 (F.outgoingEdges bb), List.map_map]
      rfl

theorem loweredSuccs_eq {rpo : List BasicBlock} (known : ∀ bb ∈ rpo, bb ∈ F.blocks) :
    loweredSuccs P F rpo = some (rpo.map fun bb => (bb, arms F bb)) := by
  rw [loweredSuccs, blockSucc_eq lowerable]
  refine mapM_some fun bb member => ?_
  rw [lowerSuccs_eq lowerable (known bb member), Option.map_some]

end Lowered

/-! ## The order -/

section Order

variable {F : FunctionData} {rpo : List BasicBlock} {bb : BasicBlock} {lb : LoweredBlock}

def order (F : FunctionData) (rpo : List BasicBlock) : List LoweredBlock :=
  rpo.flatMap fun bb => .orig bb :: (arms F bb).filter isEdge

variable {p s : BasicBlock} {k : Nat}

theorem orderOf_eq : orderOf (rpo.map fun bb => (bb, arms F bb)) = order F rpo :=
  List.flatMap_map ..

theorem mem_arms : lb ∈ arms F bb ↔
    ∃ k edge, (F.outgoingEdges bb)[k]? = some edge ∧ armOf F bb edge k = lb := by
  simp only [arms, List.mem_map, Prod.exists, List.mk_mem_zipIdx_iff_getElem?]
  exact exists_comm

/-- An arm keeps its target, or becomes a block between the two. -/
theorem armOf_cases (F : FunctionData) (bb : BasicBlock) (edge : LogicalEdge) (k : Nat) :
    armOf F bb edge k = .orig edge.target ∧ ¬ Splits F bb edge ∨
      armOf F bb edge k = .edge bb edge.target k ∧ Splits F bb edge := by
  unfold armOf
  split
  · next splits => exact .inr ⟨rfl, splits⟩
  · next keeps => exact .inl ⟨rfl, keeps⟩

theorem pred_of_mem (member : .edge p s k ∈ arms F bb) :
    p = bb ∧ ∃ edge, (F.outgoingEdges bb)[k]? = some edge ∧ edge.target = s ∧ Splits F bb edge := by
  obtain ⟨k', edge, atK, isArm⟩ := mem_arms.mp member
  rcases armOf_cases F bb edge k' with ⟨kept, -⟩ | ⟨split, splits⟩
  · cases kept.symm.trans isArm
  · cases split.symm.trans isArm
    exact ⟨rfl, edge, atK, rfl, splits⟩

theorem orig_mem_order : .orig bb ∈ order F rpo ↔ bb ∈ rpo := by
  simp only [order, List.mem_flatMap, List.mem_cons, List.mem_filter, LoweredBlock.orig.injEq]
  constructor
  · rintro ⟨b, member, rfl | ⟨-, absurd⟩⟩
    · exact member
    · cases absurd
  · exact fun member => ⟨bb, member, .inl rfl⟩

theorem edge_mem_order : .edge p s k ∈ order F rpo ↔ p ∈ rpo ∧ .edge p s k ∈ arms F p := by
  simp only [order, List.mem_flatMap, List.mem_cons, List.mem_filter, reduceCtorEq, false_or]
  constructor
  · rintro ⟨b, member, isArm, -⟩
    obtain ⟨rfl, -⟩ := pred_of_mem isArm
    exact ⟨member, isArm⟩
  · exact fun ⟨member, isArm⟩ => ⟨p, member, isArm, rfl⟩

/-- The block of which a lowered block is a part. -/
def source : LoweredBlock → BasicBlock
  | .orig block => block
  | .edge pred _ _ => pred

/-- The arms of a block are all different. -/
theorem nodup_arms (placed : bb ∈ F.blocks) : (arms F bb).Nodup := by
  rcases outgoingEdges_cases F bb with none | ⟨inst, target, args, -, -, single⟩ |
    ⟨inst, cond, t, tArgs, f, fArgs, -, -, both⟩
  · simp [arms, none]
  · simp [arms, single]
  · have edges : arms F bb = [armOf F bb ⟨bb, inst, .onTrue, t, tArgs⟩ 0,
        armOf F bb ⟨bb, inst, .onFalse, f, fArgs⟩ 1] := by
      simp [arms, both]
    rw [edges, List.nodup_cons, List.mem_singleton]
    refine ⟨fun same => ?_, List.nodup_singleton _⟩
    rcases armOf_cases F bb ⟨bb, inst, .onTrue, t, tArgs⟩ 0 with ⟨kept, keeps⟩ | ⟨split, -⟩ <;>
      rcases armOf_cases F bb ⟨bb, inst, .onFalse, f, fArgs⟩ 1 with ⟨kept', -⟩ | ⟨split', -⟩
    · -- both arms count as edges to the common target
      rw [kept, kept'] at same
      obtain rfl : t = f := LoweredBlock.orig.inj same
      refine keeps ⟨by rw [both]; simp, .inl ?_⟩
      have twice : (targets F bb).count t = 2 := by simp [targets, both]
      have part : (targets F bb).Sublist (F.blocks.flatMap (targets F)) :=
        List.sublist_flatten_of_mem (List.mem_map_of_mem placed)
      have := part.count_le t
      rw [twice] at this
      exact this
    · rw [kept, split'] at same
      cases same
    · rw [split, kept'] at same
      cases same
    · rw [split, split'] at same
      cases same

theorem nodup_order (nodup : rpo.Nodup) (known : ∀ bb ∈ rpo, bb ∈ F.blocks) :
    (order F rpo).Nodup := by
  refine List.nodup_flatMap.mpr ⟨fun bb member => ?_, nodup.imp fun {b b'} differ => ?_⟩
  · refine List.nodup_cons.mpr ⟨fun absurd => ?_, (nodup_arms (known bb member)).filter _⟩
    cases (List.mem_filter.mp absurd).2
  · have sources : ∀ {b lb}, lb ∈ LoweredBlock.orig b :: (arms F b).filter isEdge →
        source lb = b := by
      intro b lb member
      rcases List.mem_cons.mp member with rfl | later
      · rfl
      · obtain ⟨isArm, isEdge⟩ := List.mem_filter.mp later
        cases lb with
        | orig block => cases isEdge
        | edge p s k => exact (pred_of_mem isArm).1
    exact fun lb here there => differ ((sources here).symm.trans (sources there))

variable (closed : ∀ bb ∈ rpo, ∀ target ∈ targets F bb, target ∈ rpo)

include closed in
theorem arms_subset_order (member : bb ∈ rpo) : arms F bb ⊆ order F rpo := by
  intro lb isArm
  cases lb with
  | orig block =>
    obtain ⟨k, edge, atK, same⟩ := mem_arms.mp isArm
    rcases armOf_cases F bb edge k with ⟨kept, -⟩ | ⟨split, -⟩
    · cases kept.symm.trans same
      exact orig_mem_order.mpr
        (closed bb member _ (List.mem_map_of_mem (List.mem_of_getElem? atK)))
    · cases split.symm.trans same
  | edge p s k =>
    obtain ⟨rfl, -⟩ := pred_of_mem isArm
    exact edge_mem_order.mpr ⟨member, isArm⟩

/-- Where a lowered block leads. -/
def targetsOf (F : FunctionData) : LoweredBlock → List LoweredBlock
  | .orig block => arms F block
  | .edge _ succ _ => [.orig succ]

include closed in
theorem targetsOf_subset (member : lb ∈ order F rpo) : targetsOf F lb ⊆ order F rpo := by
  cases lb with
  | orig block => exact arms_subset_order closed (orig_mem_order.mp member)
  | edge p s k =>
    obtain ⟨inRpo, isArm⟩ := edge_mem_order.mp member
    obtain ⟨-, edge, atK, rfl, -⟩ := pred_of_mem isArm
    intro lb isTarget
    rw [List.mem_singleton.mp isTarget]
    exact orig_mem_order.mpr
      (closed p inRpo _ (List.mem_map_of_mem (List.mem_of_getElem? atK)))

end Order

/-! ## The tables -/

section Tables

variable {P : Program} {F : FunctionData} {rpo : List BasicBlock}

def instOf (F : FunctionData) : LoweredBlock → Option Inst
  | .orig block => branchOf F block
  | .edge .. => none

def succList (F : FunctionData) (rpo : List BasicBlock) (lb : LoweredBlock) : List MirBlockIndex :=
  (targetsOf F lb).map (order F rpo).idxOf

/-- What `new` builds for blocks in some order. -/
def lowered (F : FunctionData) (rpo : List BasicBlock) : BlockLoweringOrder where
  loweredOrder := order F rpo
  loweredSuccIndices := ((order F rpo).map (succList F rpo)).flatten
  loweredSuccRanges :=
    ((order F rpo).map (instOf F)).zip (ranges 0 ((order F rpo).map (succList F rpo)))
  hlirBlockMap := blockMap (fun _ => none) 0 (rpo.map fun bb => (bb, arms F bb))

variable (lowerable : Lowerable P F) (nodup : rpo.Nodup) (known : ∀ bb ∈ rpo, bb ∈ F.blocks)
  (closed : ∀ bb ∈ rpo, ∀ target ∈ targets F bb, target ∈ rpo)

theorem getElem?_idxOf {α : Type} [DecidableEq α] {list : List α} {a : α} (member : a ∈ list) :
    list[list.idxOf a]? = some a := by
  rw [List.getElem?_eq_some_iff]
  exact ⟨List.idxOf_lt_length_of_mem member, List.getElem_idxOf _⟩

include nodup known in
theorem indexMap_order {lb : LoweredBlock} (member : lb ∈ order F rpo) :
    indexMap (order F rpo) lb = some ((order F rpo).idxOf lb) :=
  (indexMap_iff (nodup_order nodup known)).mpr (getElem?_idxOf member)

include lowerable nodup known closed in
theorem ofRpo_eq : ofRpo P F rpo = some (lowered F rpo) := by
  have each : ∀ lb ∈ order F rpo, succsOf F (rpo.map fun bb => (bb, arms F bb))
      (indexMap (order F rpo)) lb = some (instOf F lb, succList F rpo lb) := by
    intro lb member
    have subset := targetsOf_subset closed member
    cases lb with
    | orig block =>
      have indices : (arms F block).mapM (indexMap (order F rpo)) =
          some (succList F rpo (.orig block)) :=
        mapM_some fun target isTarget => indexMap_order nodup known (subset isTarget)
      rw [succsOf, lookup_map (orig_mem_order.mp member), Option.bind_some, indices]
      rfl
    | edge p s k =>
      rw [succsOf, indexMap_order nodup known (subset (List.mem_singleton_self _))]
      rfl
  rw [ofRpo, loweredSuccs_eq lowerable known]
  simp only [Option.bind_eq_bind, Option.bind_some, orderOf_eq]
  rw [mapM_some each, Option.bind_some]
  simp only [List.map_map]
  rfl

theorem succIndices_lowered {i : Nat} {lb : LoweredBlock} (atI : (order F rpo)[i]? = some lb) :
    (lowered F rpo).succIndices i = some (instOf F lb, succList F rpo lb) := by
  have piece : ((order F rpo).map (succList F rpo))[i]? = some (succList F rpo lb) := by
    rw [List.getElem?_map, atI, Option.map_some]
  obtain ⟨range, isRange, found⟩ := extract_ranges piece
  have entry : (lowered F rpo).loweredSuccRanges[i]? = some (instOf F lb, range) := by
    refine List.getElem?_zip_eq_some.mpr ⟨?_, isRange⟩
    rw [List.getElem?_map, atI, Option.map_some]
  rw [succIndices, entry, Option.map_some]
  exact congrArg (fun list => some (instOf F lb, list)) found

theorem blockMap_spec (map : BasicBlock → Option MirBlockIndex) (nodup : rpo.Nodup) (start : Nat)
    (bb : BasicBlock) :
    (bb ∈ rpo → ∃ j, blockMap map start (rpo.map fun bb => (bb, arms F bb)) bb = some (start + j) ∧
      (order F rpo)[j]? = some (.orig bb)) ∧
    (bb ∉ rpo → blockMap map start (rpo.map fun bb => (bb, arms F bb)) bb = map bb) := by
  induction rpo generalizing map start with
  | nil => exact ⟨fun absurd => (List.not_mem_nil absurd).elim, fun _ => rfl⟩
  | cons first rpo ih =>
    obtain ⟨fresh, nodup⟩ := List.nodup_cons.mp nodup
    obtain ⟨later, other⟩ := ih (Function.update map first (some start)) nodup
      (start + 1 + ((arms F first).filter isEdge).length)
    have split : order F (first :: rpo) =
        (.orig first :: (arms F first).filter isEdge) ++ order F rpo := List.flatMap_cons
    rw [List.map_cons, blockMap]
    constructor
    · intro member
      rcases List.mem_cons.mp member with rfl | member
      · refine ⟨0, (other fresh).trans (Function.update_self ..), ?_⟩
        rw [split]
        rfl
      · obtain ⟨j, isIndex, atJ⟩ := later member
        refine ⟨1 + ((arms F first).filter isEdge).length + j, isIndex.trans ?_, ?_⟩
        · rw [Nat.add_assoc, Nat.add_assoc, Nat.add_assoc]
        · rw [split, List.getElem?_append_right (by simp; omega), ← atJ]
          congr 1
          simp
          omega
    · intro outside
      rw [List.mem_cons, not_or] at outside
      exact (other outside.2).trans (Function.update_of_ne outside.1 ..)

end Tables

/-! ## How often a lowered block is a successor -/

section Counting

variable {F : FunctionData} {rpo : List BasicBlock}

/-- The successors of all lowered blocks. -/
def allTargets (F : FunctionData) (rpo : List BasicBlock) : List LoweredBlock :=
  (order F rpo).flatMap (targetsOf F)

theorem loweredSuccIndices_eq :
    (lowered F rpo).loweredSuccIndices = (allTargets F rpo).map (order F rpo).idxOf := by
  rw [allTargets, List.map_flatMap]
  rfl

theorem count_index {lb : LoweredBlock}
    (closed : ∀ bb ∈ rpo, ∀ target ∈ targets F bb, target ∈ rpo) :
    (lowered F rpo).loweredSuccIndices.count ((order F rpo).idxOf lb) =
      (allTargets F rpo).count lb := by
  rw [loweredSuccIndices_eq, List.count_eq_countP, List.countP_map, List.count_eq_countP]
  refine List.countP_congr fun target isTarget => ?_
  obtain ⟨from_, isSource, isTarget⟩ := List.mem_flatMap.mp isTarget
  have known := targetsOf_subset closed isSource isTarget
  simp only [Function.comp_apply, beq_iff_eq]
  exact List.idxOf_inj known

/-- The successors of a block and of the blocks of its edges. -/
theorem allTargets_eq : allTargets F rpo = rpo.flatMap fun bb =>
    arms F bb ++ ((arms F bb).filter isEdge).flatMap (targetsOf F) := by
  rw [allTargets, order, List.flatMap_assoc]
  rfl

theorem count_orig_arms (t : BasicBlock) (bb : BasicBlock) :
    (arms F bb ++ ((arms F bb).filter isEdge).flatMap (targetsOf F)).count (.orig t) =
      (targets F bb).count t := by
  have pairs : ∀ L : List (LogicalEdge × Nat),
      ((L.map fun entry => armOf F bb entry.1 entry.2) ++
        ((L.map fun entry => armOf F bb entry.1 entry.2).filter isEdge).flatMap (targetsOf F)).count
          (.orig t) = ((L.map Prod.fst).map LogicalEdge.target).count t := by
    intro L
    induction L with
    | nil => rfl
    | cons entry L ih =>
      simp only [List.map_cons, List.count_append] at ih ⊢
      rcases armOf_cases F bb entry.1 entry.2 with ⟨kept, -⟩ | ⟨split, -⟩
      · rw [kept, List.filter_cons_of_neg (by simp [isEdge]), List.count_cons,
          List.count_cons, ← ih]
        simp only [beq_iff_eq, LoweredBlock.orig.injEq]
        omega
      · rw [split, List.filter_cons_of_pos rfl, List.flatMap_cons, List.count_append,
          List.count_cons, List.count_cons, ← ih]
        simp only [targetsOf, List.count_cons, List.count_nil, beq_iff_eq, LoweredBlock.orig.injEq,
          reduceCtorEq, if_false]
        omega
  refine (pairs (F.outgoingEdges bb).zipIdx).trans ?_
  rw [List.zipIdx_map_fst]
  rfl

theorem count_orig (t : BasicBlock) :
    (allTargets F rpo).count (.orig t) = (rpo.flatMap (targets F)).count t := by
  rw [allTargets_eq, List.count_flatMap, List.count_flatMap]
  congr 1
  exact List.map_congr_left fun bb _ => count_orig_arms t bb

theorem count_edge_le (nodup : rpo.Nodup) (known : ∀ bb ∈ rpo, bb ∈ F.blocks) (p s : BasicBlock)
    (k : Nat) : (allTargets F rpo).count (.edge p s k) ≤ 1 := by
  have each : ∀ bb, (arms F bb ++ ((arms F bb).filter isEdge).flatMap (targetsOf F)).count
      (.edge p s k) ≤ (LoweredBlock.orig bb :: (arms F bb).filter isEdge).count (.edge p s k) := by
    intro bb
    have none : (((arms F bb).filter isEdge).flatMap (targetsOf F)).count (.edge p s k) = 0 := by
      rw [List.count_eq_zero]
      intro member
      obtain ⟨lb, isFiltered, isTarget⟩ := List.mem_flatMap.mp member
      cases lb with
      | orig block => cases (List.mem_filter.mp isFiltered).2
      | edge p' s' k' => cases List.mem_singleton.mp isTarget
    rw [List.count_append, none, List.count_cons, List.count_filter rfl]
    omega
  have le : (allTargets F rpo).count (.edge p s k) ≤ (order F rpo).count (.edge p s k) := by
    rw [allTargets_eq, order, List.count_flatMap, List.count_flatMap]
    exact List.sum_le_sum fun bb _ => each bb
  exact le.trans (List.nodup_iff_count_le_one.mp (nodup_order nodup known) _)

end Counting

/-! ## The result -/

/-- The reachable blocks, and no other blocks of the function, are lowered once each. -/
structure Covers (O : BlockLoweringOrder) (F : FunctionData) : Prop where
  once : ∀ bb ∈ F.reachable, O.loweredOrder.count (.orig bb) = 1
  only : ∀ bb, .orig bb ∈ O.loweredOrder → bb ∈ F.reachable
  index : ∀ bb ∈ F.reachable, ∃ i, O.loweredIndexForBlock bb = some i ∧
    O.loweredOrder[i]? = some (.orig bb)

/-- The lowered block is the target of an edge, or a block of that edge's own which leads there. -/
def LeadsTo (O : BlockLoweringOrder) (bb : BasicBlock) (k : Nat) (target : BasicBlock)
    (j : MirBlockIndex) : Prop :=
  O.loweredOrder[j]? = some (.orig target) ∨
    O.loweredOrder[j]? = some (.edge bb target k) ∧
      ∃ t, O.loweredOrder[t]? = some (.orig target) ∧ O.succIndices j = some (none, [t])

/-- The edges of a terminator have successors of their own, in the order of the terminator. -/
def EdgesApart (O : BlockLoweringOrder) (F : FunctionData) : Prop :=
  ∀ bb ∈ F.reachable, ∀ i, O.loweredOrder[i]? = some (.orig bb) →
    ∃ indices, O.succIndices i = some (branchOf F bb, indices) ∧ indices.Nodup ∧
      indices.length = (F.outgoingEdges bb).length ∧
      ∀ k edge, (F.outgoingEdges bb)[k]? = some edge →
        ∃ j, indices[k]? = some j ∧ O.LeadsTo bb k edge.target j

/-- The ways into a lowered block; the first block of the function is entered from outside too. -/
def entries (O : BlockLoweringOrder) (F : FunctionData) (j : MirBlockIndex) : Nat :=
  O.loweredSuccIndices.count j + if O.loweredOrder[j]? = F.entryBlock.map .orig then 1 else 0

/-- The source of every edge has one successor, or the target one way in. -/
def NoCriticalEdge (O : BlockLoweringOrder) (F : FunctionData) : Prop :=
  ∀ i j inst indices, O.succIndices i = some (inst, indices) → j ∈ indices →
    indices.length = 1 ∨ O.entries F j = 1

/-- A two-way branch holds the only edge to a first block without parameters. -/
def BareEntryBranch (F : FunctionData) : Prop :=
  ∃ entry, F.entryBlock = some entry ∧ F.blockParams entry = [] ∧ inDegreeOf F entry = 1 ∧
    ∃ bb ∈ F.reachable, (F.outgoingEdges bb).length > 1 ∧ entry ∈ targets F bb

section Result

variable {P : Program} {F : FunctionData} {rpo : List BasicBlock} (lowerable : Lowerable P F)
  (nodup : rpo.Nodup) (reached : ∀ bb, bb ∈ rpo ↔ bb ∈ F.reachable)

include reached in
theorem mem_blocks_of_rpo : ∀ bb ∈ rpo, bb ∈ F.blocks := fun bb member =>
  FunctionData.reachable_subset_blocks ((reached bb).mp member)

include lowerable reached in
theorem targets_mem_rpo : ∀ bb ∈ rpo, ∀ target ∈ targets F bb, target ∈ rpo := by
  intro bb member target isTarget
  obtain ⟨edge, leaves, rfl⟩ := List.mem_map.mp isTarget
  have placed := mem_blocks_of_rpo reached bb member
  exact (reached _).mpr (FunctionData.reachable_of_edge ((reached bb).mp member) leaves
    (lowerable.terminated.targets bb placed edge leaves))

include nodup reached in
theorem covers : (lowered F rpo).Covers F where
  once := by
    intro bb isReached
    have member : .orig bb ∈ order F rpo := orig_mem_order.mpr ((reached bb).mpr isReached)
    exact List.count_eq_one_of_mem (nodup_order nodup (mem_blocks_of_rpo reached)) member
  only := fun bb member => (reached bb).mp (orig_mem_order.mp member)
  index := by
    intro bb isReached
    obtain ⟨j, isIndex, atJ⟩ :=
      (blockMap_spec (fun _ => none) nodup 0 bb).1 ((reached bb).mpr isReached)
    rw [Nat.zero_add] at isIndex
    exact ⟨j, isIndex, atJ⟩

include lowerable reached in
theorem edgesApart : (lowered F rpo).EdgesApart F := by
  intro bb isReached i atI
  have member := (reached bb).mpr isReached
  have placed := mem_blocks_of_rpo reached bb member
  have closed := targets_mem_rpo lowerable reached
  have subset := arms_subset_order closed member
  refine ⟨succList F rpo (.orig bb), succIndices_lowered atI, ?_, ?_, ?_⟩
  · refine (nodup_arms placed).map_on fun lb isArm lb' isArm' same => ?_
    exact (List.idxOf_inj (subset isArm)).mp same
  · rw [succList, List.length_map, targetsOf, arms, List.length_map, List.length_zipIdx]
  · intro k edge atK
    have isArm : armOf F bb edge k ∈ arms F bb := mem_arms.mpr ⟨k, edge, atK, rfl⟩
    refine ⟨(order F rpo).idxOf (armOf F bb edge k), ?_, ?_⟩
    · simp [succList, targetsOf, arms, List.getElem?_zipIdx, atK]
    · have atJ := getElem?_idxOf (subset isArm)
      rcases armOf_cases F bb edge k with ⟨kept, -⟩ | ⟨split, -⟩
      · rw [kept] at atJ ⊢
        exact .inl atJ
      · rw [split] at atJ ⊢
        have inOrder : .orig edge.target ∈ order F rpo := orig_mem_order.mpr
          (closed bb member _ (List.mem_map_of_mem (List.mem_of_getElem? atK)))
        exact .inr ⟨atJ, _, getElem?_idxOf inOrder, succIndices_lowered atJ⟩

include nodup reached in
theorem count_rpo_le (t : BasicBlock) : (rpo.flatMap (targets F)).count t ≤ inDegreeOf F t := by
  obtain ⟨list, perm, sublist⟩ := nodup.subperm (mem_blocks_of_rpo reached)
  rw [← (perm.flatMap_right (targets F)).count_eq]
  exact (sublist.map (targets F)).flatten.count_le t

theorem length_succList (bb : BasicBlock) :
    (succList F rpo (.orig bb)).length = (F.outgoingEdges bb).length := by
  rw [succList, List.length_map, targetsOf, arms, List.length_map, List.length_zipIdx]

/-- A lowered block whose successors are known is in the order. -/
theorem exists_of_succIndices {i : MirBlockIndex} {result : Option Inst × List MirBlockIndex}
    (found : (lowered F rpo).succIndices i = some result) :
    ∃ lb, (order F rpo)[i]? = some lb ∧ result = (instOf F lb, succList F rpo lb) := by
  obtain ⟨range, isRange, -⟩ := Option.map_eq_some_iff.mp found
  have inside : i < (order F rpo).length := by
    have inRanges := (List.getElem?_eq_some_iff.mp isRange).1
    simpa [lowered, length_ranges] using inRanges
  have atI := List.getElem?_eq_getElem inside
  exact ⟨_, atI, Option.some.inj (found.symm.trans (succIndices_lowered atI))⟩

include lowerable nodup reached in
theorem noCriticalEdge_iff : (lowered F rpo).NoCriticalEdge F ↔ ¬ BareEntryBranch F := by
  have closed := targets_mem_rpo lowerable reached
  have known := mem_blocks_of_rpo reached
  have used : ∀ {lb target}, lb ∈ order F rpo → target ∈ targetsOf F lb →
      1 ≤ (allTargets F rpo).count target := fun member isTarget =>
    List.one_le_count_iff.mpr (List.mem_flatMap.mpr ⟨_, member, isTarget⟩)
  constructor
  · rintro none ⟨entry, isEntry, noParams, once, bb, isReached, several, isTarget⟩
    have member := (reached bb).mpr isReached
    obtain ⟨edge, leaves, rfl⟩ := List.mem_map.mp isTarget
    obtain ⟨k, atK⟩ := List.mem_iff_getElem?.mp leaves
    have noArgs : edge.args = [] := by
      have same := lowerable.args bb (known bb member) edge leaves
      rw [sameTypes, noParams, Bool.and_eq_true, decide_eq_true_eq] at same
      exact List.length_eq_zero_iff.mp same.1
    have kept : armOf F bb edge k = .orig edge.target :=
      if_neg fun splits => by simp [Splits, once, noArgs, noParams] at splits
    have isArm : .orig edge.target ∈ arms F bb := mem_arms.mpr ⟨k, edge, atK, kept⟩
    have inOrder : .orig bb ∈ order F rpo := orig_mem_order.mpr member
    have targetInOrder := arms_subset_order closed member isArm
    have way := none _ ((order F rpo).idxOf (.orig edge.target)) _ _
      (succIndices_lowered (getElem?_idxOf inOrder)) (List.mem_map_of_mem isArm)
    rw [length_succList, entries, count_index closed] at way
    have enters : (lowered F rpo).loweredOrder[(order F rpo).idxOf (.orig edge.target)]? =
        F.entryBlock.map .orig := by
      rw [isEntry]
      exact getElem?_idxOf targetInOrder
    rw [if_pos enters] at way
    have := used inOrder isArm
    omega
  · intro notBare i j inst indices found isSucc
    obtain ⟨lb, atI, same⟩ := exists_of_succIndices found
    cases same
    have member := List.mem_of_getElem? atI
    obtain ⟨target, isTarget, rfl⟩ := List.mem_map.mp isSucc
    have inOrder := targetsOf_subset closed member isTarget
    have atJ := getElem?_idxOf inOrder
    cases lb with
    | edge p s k => exact .inl rfl
    | orig bb =>
      have inRpo := orig_mem_order.mp member
      obtain ⟨k, edge, atK, isArm⟩ := mem_arms.mp isTarget
      rw [length_succList, entries, count_index closed]
      by_cases several : (F.outgoingEdges bb).length > 1
      · refine .inr ?_
        have atLeast := used member isTarget
        have enters : (lowered F rpo).loweredOrder[(order F rpo).idxOf target]? = some target :=
          atJ
        rw [enters]
        rcases armOf_cases F bb edge k with ⟨kept, keeps⟩ | ⟨split, -⟩
        · obtain rfl : .orig edge.target = target := kept.symm.trans isArm
          rw [Splits, not_and] at keeps
          have bare := keeps several
          push Not at bare
          obtain ⟨few, -, noParams⟩ := bare
          rw [count_orig] at atLeast ⊢
          have atMost := count_rpo_le nodup reached edge.target
          rw [if_neg fun isEntry => ?_]
          · omega
          · obtain ⟨entry, isEntry, same⟩ := Option.map_eq_some_iff.mp isEntry.symm
            obtain rfl : entry = edge.target := LoweredBlock.orig.inj same
            exact notBare ⟨_, isEntry, noParams, by omega, bb, (reached bb).mp inRpo, several,
              List.mem_map_of_mem (List.mem_of_getElem? atK)⟩
        · obtain rfl : .edge bb edge.target k = target := split.symm.trans isArm
          have atMost := count_edge_le nodup known bb edge.target k
          rw [if_neg fun isEntry => ?_]
          · omega
          · obtain ⟨entry, -, same⟩ := Option.map_eq_some_iff.mp isEntry.symm
            cases same
      · have : 0 < (F.outgoingEdges bb).length :=
          List.length_pos_of_mem (List.mem_of_getElem? atK)
        exact .inl (by omega)

end Result

/-- `new` always yields an order that covers the reachable blocks and keeps the edges apart.  No
edge is critical exactly when no two-way branch holds the only edge to a first block without
parameters. -/
theorem new_noCriticalEdge_iff {P : Program} {F : FunctionData} (lowerable : Lowerable P F) :
    (∃ fuel O, new P F fuel = some O) ∧ ∀ fuel O, new P F fuel = some O →
      O.Covers F ∧ O.EdgesApart F ∧ (O.NoCriticalEdge F ↔ ¬ BareEntryBranch F) := by
  constructor
  · obtain ⟨fuel, rpo, found⟩ := domtreeRpo_total lowerable.terminated lowerable.hasEntry
    obtain ⟨nodup, reached⟩ := domtreeRpo_spec lowerable.terminated found
    exact ⟨fuel, lowered F rpo, Option.bind_eq_some_iff.mpr ⟨rpo, found,
      ofRpo_eq lowerable nodup (mem_blocks_of_rpo reached) (targets_mem_rpo lowerable reached)⟩⟩
  · intro fuel O isOrder
    obtain ⟨rpo, found, isLowered⟩ := Option.bind_eq_some_iff.mp isOrder
    obtain ⟨nodup, reached⟩ := domtreeRpo_spec lowerable.terminated found
    rw [ofRpo_eq lowerable nodup (mem_blocks_of_rpo reached) (targets_mem_rpo lowerable reached)]
      at isLowered
    cases isLowered
    exact ⟨covers nodup reached, edgesApart lowerable reached,
      noCriticalEdge_iff lowerable nodup reached⟩

/-- A function without parameters whose first block branches back to itself. -/
def entryLoop : Ir.Listing where
  retTy := .unit
  name := "main"
  paramsTy := []
  layout := [(1, [2]), (2, [3])]
  insts := [(1, ⟨.int32, .integer 1⟩), (2, ⟨.unit, .branch 1 1 [] 2 []⟩), (3, ⟨.unit, .ret none⟩)]
  nextInst := 4
  blockParams := []
  nextBlock := 3

def entryLoopProgram : Program := .ofListings [entryLoop] [] 0

theorem entryLoop_lowerable : Lowerable entryLoopProgram entryLoop.toFunctionData where
  hasEntry := ⟨1, rfl⟩
  nodup := by decide
  terminated := by
    refine ⟨?_, by decide⟩
    intro bb placed
    have known : bb = 1 ∨ bb = 2 := by
      simpa [entryLoop, FunctionData.blocks, Ir.Listing.toFunctionData] using placed
    rcases known with rfl | rfl
    · exact ⟨2, _, rfl, rfl, rfl⟩
    · exact ⟨3, _, rfl, rfl, rfl⟩
  args := by decide

/-- The edge from the first block to itself stays critical. -/
theorem entryLoop_critical : ∃ O, new entryLoopProgram entryLoop.toFunctionData 20 = some O ∧
    ¬ (O.Covers entryLoop.toFunctionData ∧ O.EdgesApart entryLoop.toFunctionData ∧
      O.NoCriticalEdge entryLoop.toFunctionData) := by
  refine ⟨_, (Option.some_get (by decide)).symm, fun holds => ?_⟩
  rcases holds.2.2 0 0 (some 2) [0, 1] (by decide) (by decide) with single | once
  · exact absurd single (by decide)
  · exact absurd once (by decide)

theorem new_noCriticalEdge_iff_entryLoop :
    (∃ fuel O, new entryLoopProgram entryLoop.toFunctionData fuel = some O) ∧
      ∀ fuel O, new entryLoopProgram entryLoop.toFunctionData fuel = some O →
        O.Covers entryLoop.toFunctionData ∧ O.EdgesApart entryLoop.toFunctionData ∧
          (O.NoCriticalEdge entryLoop.toFunctionData ↔
            ¬ BareEntryBranch entryLoop.toFunctionData) :=
  new_noCriticalEdge_iff entryLoop_lowerable

end BlockLoweringOrder

end AnonCompiler.Mir
