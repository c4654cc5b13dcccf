import AnonCompiler.Opt.RangeCanonical

/-!
# The range solver comes to an end

Whatever the caps, the transfer functions and the choice of the loop headers, a round of
the solver only joins into the block entries and the edge states, so they grow.  A block
is put on the worklist when its entry has changed; then some parameter of the block has
a larger range, or is new, and `load` counts that.  The worklist gets shorter with
every block taken from it, by at least as much as the load does not grow, and the load is
bounded by `capacity`.
-/

set_option autoImplicit false

namespace AnonCompiler.Opt

open Ir Lib FinMap IntRange

variable {A : RangeAnalysis} {F : FunctionData} {G : CFG}

/-- All ranges of the state are canonical. -/
abbrev RangeState.Canonical (state : RangeState) : Prop := state.All IntRange.Canonical

/-- The state holds what the other one holds, with larger ranges. -/
abbrev RangeState.Grows (state state' : RangeState) : Prop := FinMap.Grows Subset state state'

variable {state target incoming : RangeState} {range : IntRange} {bb : BasicBlock}

theorem RangeState.Grows.rfl : state.Grows state :=
  FinMap.Grows.refl Subset.refl state

theorem RangeState.Grows.trans {a b c : RangeState} (first : a.Grows b) (second : b.Grows c) :
    a.Grows c :=
  FinMap.Grows.trans Subset.trans first second

/-! ## Evaluation -/

namespace RangeAnalysis

variable {ranges facts : RangeState} {evaluate : Inst → IntRange}

theorem canonical_lookupD (canonical : ranges.Canonical) (value : Inst) :
    ((ranges.lookup value).getD .full).Canonical := by
  cases found : ranges.lookup value with
  | none => exact canonical_full
  | some range =>
    rw [Option.getD_some]
    exact canonical found

theorem canonical_baseRange (canonical : ranges.Canonical) (value : Inst) :
    (A.baseRange ranges value).Canonical := by
  unfold baseRange
  cases A.definitions value with
  | none => exact canonical_full
  | some definition =>
    cases definition with
    | integer v => exact canonical_constant v
    | zeroInit => exact canonical_constant 0
    | undef | unknown => exact canonical_full
    | _ => exact canonical_lookupD canonical value

theorem canonical_mulmodRange (p : Inst) : (A.mulmodRange p).Canonical := by
  unfold mulmodRange
  split
  · split
    · exact canonical_bounded _ _
    · exact canonical_bounded _ _
  · exact canonical_bounded _ _

theorem canonical_callRange (callee : Function) (args : List Inst) :
    (A.callRange evaluate callee args).Canonical := by
  unfold callRange
  split
  · split
    · exact canonical_mulmodRange _
    · exact canonical_full
  · split
    · exact canonical_bounded _ _
    · exact canonical_full

theorem canonical_selectRange (canonical : ∀ value, (evaluate value).Canonical)
    (condition ifTrue ifFalse : Inst) :
    (selectRange evaluate condition ifTrue ifFalse).Canonical := by
  unfold selectRange
  split
  · exact canonical ifFalse
  · split
    · exact canonical ifTrue
    · exact canonical_join (canonical ifTrue) (canonical ifFalse)

theorem canonical_castRange (canonical : ∀ value, (evaluate value).Canonical) (src : Inst)
    (sourceFloat : Option (BitVec 32)) : (A.castRange evaluate src sourceFloat).Canonical := by
  unfold castRange
  split
  · exact canonical_constant _
  · exact canonical src
  · exact canonical_full

theorem canonical_evaluateDef (known : ranges.Canonical)
    (canonical : ∀ value, (evaluate value).Canonical) (value : Inst) :
    (A.evaluateDef ranges evaluate value).Canonical := by
  unfold evaluateDef
  split
  · exact canonical_constant _
  · exact canonical_constant 0
  · exact canonical_transferBinary (canonical _) (canonical _)
  · exact canonical_selectRange canonical _ _ _
  · exact canonical_castRange canonical _ _
  · exact canonical_lookupD known value
  · exact canonical_callRange _ _
  · exact canonical_full
  · exact canonical_full
  · exact canonical_full

theorem canonical_evaluateContextual (known : ranges.Canonical) (given : facts.Canonical)
    (left : Nat) (visiting : List Inst) (value : Inst) :
    (A.evaluateContextual ranges facts left visiting value).Canonical := by
  induction left generalizing visiting value with
  | zero =>
    rw [evaluateContextual]
    cases found : facts.lookup value with
    | none => exact canonical_baseRange known value
    | some range => exact given found
  | succ left ih =>
    rw [evaluateContextual]
    split
    · next range found => exact given found
    · split
      · exact canonical_baseRange known value
      · exact canonical_evaluateDef known (ih (value :: visiting)) value

theorem canonical_evalWithState (known : ranges.Canonical) (given : facts.Canonical)
    (value : Inst) : (A.evalWithState ranges facts value).Canonical :=
  canonical_evaluateContextual known given _ _ value

variable {state refined : RangeState} {truth : Bool}

theorem canonical_refineCondition {range refined : IntRange} (canonical : range.Canonical)
    (isRefined : refineCondition truth range = some refined) : refined.Canonical := by
  obtain ⟨-, isRefined⟩ := Option.ite_none_left_eq_some.mp isRefined
  obtain ⟨-, isRefined⟩ := Option.ite_none_left_eq_some.mp isRefined
  obtain rfl := Option.some.inj isRefined
  split
  · exact canonical_assumeNe canonical _
  · exact canonical_intersect _ _

theorem canonical_refineOperands (known : ranges.Canonical) (canonical : state.Canonical)
    {condition : Inst}
    (isRefined : A.refineOperands ranges F truth condition state = some refined) :
    refined.Canonical := by
  unfold refineOperands at isRefined
  split at isRefined
  · next op lhs rhs _ =>
      split at isRefined
      · dsimp only at isRefined
        split at isRefined
        · cases isRefined
        · obtain rfl := Option.some.inj isRefined
          have canonicalLhs := canonical_evalWithState (A := A) known canonical lhs
          have canonicalRhs := canonical_evalWithState (A := A) known canonical rhs
          obtain ⟨left, right⟩ :=
            @canonical_refineComparison (armCompare truth op) _ _ canonicalLhs canonicalRhs
          exact (canonical.insert left).insert right
      · cases isRefined
        exact canonical
  · cases isRefined
    exact canonical

theorem canonical_refineEdge (known : ranges.Canonical) (canonical : state.Canonical)
    {edge : LogicalEdge} (isRefined : A.refineEdge ranges F edge state = some refined) :
    refined.Canonical := by
  unfold refineEdge at isRefined
  split at isRefined
  · cases isRefined
    exact canonical
  · dsimp only at isRefined
    split at isRefined
    · cases isRefined
    · next conditionRange isCondition =>
        refine canonical_refineOperands known (canonical.insert ?_) isRefined
        exact canonical_refineCondition (canonical_evalWithState known canonical _) isCondition
  · cases isRefined
    exact canonical

end RangeAnalysis

/-! ## Joining states -/

theorem RangeState.Canonical.observe (canonical : state.Canonical) (isCanonical : range.Canonical)
    (value : Inst) : (state.observe value range).Canonical := by
  refine canonical.insert ?_
  cases found : state.lookup value with
  | none => exact isCanonical
  | some old => exact canonical_join (canonical found) isCanonical

theorem canonical_merge {old : IntRange} (left : old.Canonical) (right : range.Canonical) :
    (merge old range).1.Canonical :=
  canonical_join left right

theorem RangeState.Canonical.joinState (left : target.Canonical) (right : incoming.Canonical) :
    (Opt.joinState target incoming).1.Canonical :=
  mergeAll_all canonical_merge left right

theorem grows_joinState (target incoming : RangeState) :
    target.Grows (joinState target incoming).1 :=
  mergeAll_grows Subset.refl Subset.trans subset_join target incoming

/-- The ranges of the parameters of a block. -/
def entryLoad (F : FunctionData) (bb : BasicBlock) (state : RangeState) : Nat :=
  state.weight (F.blockParams bb).toFinset fun _ range => range.size

/-- The state holds ranges of parameters of the block only. -/
structure PassedTo (F : FunctionData) (bb : BasicBlock) (state : RangeState) : Prop where
  canonical : state.Canonical
  params : ∀ ⦃value range⦄, state.lookup value = some range → value ∈ F.blockParams bb

theorem PassedTo.insert (passed : PassedTo F bb state) {value : Inst}
    (isParam : value ∈ F.blockParams bb) (isCanonical : range.Canonical) :
    PassedTo F bb (state.insert value range) where
  canonical := passed.canonical.insert isCanonical
  params := by
    intro x w found
    rw [lookup_insert_eq] at found
    split at found
    · next same => exact same ▸ isParam
    · exact passed.params found

theorem entryLoad_joinState (canonical : target.Canonical) (passed : PassedTo F bb incoming) :
    entryLoad F bb target + (joinState target incoming).2.toNat ≤
      entryLoad F bb (joinState target incoming).1 :=
  mergeAll_weight canonical_merge (fun isCanonical _ => size_merge isCanonical _) canonical
    passed.canonical fun _ member =>
      List.mem_toFinset.mpr (passed.params (AList.mem_lookup_iff.mpr member))

/-! ## One block -/

/-- The blocks some edge leads to. -/
def edgeTargets (F : FunctionData) : Finset BasicBlock :=
  ((F.blocks.flatMap F.outgoingEdges).map LogicalEdge.target).toFinset

theorem mem_edgeTargets {edge : LogicalEdge} (leaves : edge ∈ F.outgoingEdges bb) :
    edge.target ∈ edgeTargets F := by
  have inLayout : bb ∈ F.blocks := by
    cases block : F.blockInsts bb with
    | none => simp [FunctionData.outgoingEdges, FunctionData.terminator, block] at leaves
    | some insts => exact FunctionData.mem_blocks block
  exact List.mem_toFinset.mpr (List.mem_map_of_mem (List.mem_flatMap.mpr ⟨bb, inLayout, leaves⟩))

namespace Solver

variable {S S' : Solver}

/-- All ranges the solver evaluates from are canonical. -/
structure Canonical (S : Solver) : Prop where
  ranges : S.ranges.Canonical
  entries : S.blockEntries.All RangeState.Canonical
  edges : S.edgeStates.All RangeState.Canonical

/-- Block entries and edge states have grown. -/
structure Grows (S S' : Solver) : Prop where
  entries : FinMap.Grows RangeState.Grows S.blockEntries S'.blockEntries
  edges : FinMap.Grows RangeState.Grows S.edgeStates S'.edgeStates

variable {S'' : Solver} {parameter : Inst} {entry : Option RangeState} {target : BasicBlock}
  {state : RangeState} {params : List Inst}

theorem Grows.rfl : S.Grows S :=
  ⟨.refl (fun _ => .rfl) _, .refl (fun _ => .rfl) _⟩

theorem Grows.trans (first : S.Grows S') (second : S'.Grows S'') : S.Grows S'' :=
  ⟨.trans RangeState.Grows.trans first.entries second.entries,
    .trans RangeState.Grows.trans first.edges second.edges⟩

def load (F : FunctionData) (S : Solver) : Nat :=
  S.blockEntries.weight (edgeTargets F) (entryLoad F)

/-- What has been put on the worklist is paid for by the load. -/
def Paid (F : FunctionData) (S S' : Solver) : Prop :=
  S'.worklist.length + S.load F ≤ S.worklist.length + S'.load F

theorem Paid.trans (first : Paid F S S') (second : Paid F S' S'') : Paid F S S'' := by
  unfold Paid at *
  omega

theorem passedTo_joinIncoming (canonical : S.Canonical) (target : BasicBlock) :
    PassedTo F target (joinIncoming A F G S target) := by
  refine List.foldlRecOn _ _ ⟨.empty, fun _ _ found => by simp at found⟩
    fun result passed edge _ => ?_
  unfold joinArguments
  split
  · exact passed
  · next state found =>
      refine List.foldlRecOn _ _ passed fun result passed pair member => ?_
      obtain ⟨parameter, argument⟩ := pair
      dsimp only
      split
      · refine ⟨passed.canonical.observe (RangeAnalysis.canonical_evalWithState canonical.ranges
          (canonical.edges found) _) _, ?_⟩
        intro x w isRange
        rw [RangeState.observe, lookup_insert_eq] at isRange
        split at isRange
        · next same => exact same ▸ (List.of_mem_zip member).1
        · exact passed.params isRange
      · exact passed

theorem canonical_capped {range : IntRange} (canonical : range.Canonical) :
    (capped A parameter range).Canonical := by
  unfold capped
  cases A.loopCaps parameter with
  | none => exact canonical
  | some cap => exact canonical_intersect _ _

theorem passedTo_widenParam (canonical : ∀ state, entry = some state → state.Canonical)
    {acc : RangeState × (BasicBlock × Inst → Nat)} (passed : PassedTo F target acc.1)
    (parameter : Inst) : PassedTo F target (widenParam A entry target acc parameter).1 := by
  unfold widenParam
  split
  · exact passed
  · next next found =>
      refine passed.insert (passed.params found) (canonical_capped ?_)
      have isNext := passed.canonical found
      split
      · refine canonical_widen ?_ isNext
        cases entry with
        | none => trivial
        | some state =>
          cases isOld : state.lookup parameter with
          | none => simp [isOld, IntRange.Canonical]
          | some old => simpa [isOld] using canonical state rfl isOld
      · exact isNext

theorem passedTo_flowInto (canonical : S.Canonical) (target : BasicBlock) :
    PassedTo F target (flowInto A F G S target).1 := by
  have passed := passedTo_joinIncoming (A := A) (F := F) (G := G) canonical target
  unfold flowInto
  dsimp only
  split
  · exact List.foldlRecOn (motive := fun acc : RangeState × (BasicBlock × Inst → Nat) =>
        PassedTo F target acc.1) _ _ passed fun acc passed parameter _ =>
        passedTo_widenParam (fun state found => canonical.entries found) passed parameter
  · exact passed

/-! ### Entering a target -/

theorem enterTarget_entries (target : BasicBlock) :
    (enterTarget A F G S target).blockEntries =
      (S.blockEntries.mergeAt joinState target (flowInto A F G S target).1).1 := by
  unfold enterTarget
  dsimp only
  split <;> rfl

theorem enterTarget_edges (target : BasicBlock) :
    (enterTarget A F G S target).edgeStates = S.edgeStates := by
  unfold enterTarget
  dsimp only
  split <;> rfl

theorem enterTarget_ranges (target : BasicBlock) :
    (enterTarget A F G S target).ranges = S.ranges := by
  unfold enterTarget
  dsimp only
  split <;> rfl

theorem enterTarget_grows (target : BasicBlock) : S.Grows (enterTarget A F G S target) where
  entries := by
    rw [enterTarget_entries]
    exact mergeAt_grows (fun _ => .rfl) grows_joinState _ _ _
  edges := by
    rw [enterTarget_edges]
    exact .refl (fun _ => .rfl) _

theorem enterTarget_canonical (canonical : S.Canonical) (target : BasicBlock) :
    (enterTarget A F G S target).Canonical where
  ranges := by
    rw [enterTarget_ranges]
    exact canonical.ranges
  entries := by
    rw [enterTarget_entries]
    exact mergeAt_all RangeState.Canonical.joinState canonical.entries
      (passedTo_flowInto canonical target).canonical
  edges := by
    rw [enterTarget_edges]
    exact canonical.edges

/-- The target is put on the worklist only when its entry has changed. -/
theorem enterTarget_worklist (target : BasicBlock) :
    (enterTarget A F G S target).worklist.length ≤ S.worklist.length +
      (S.blockEntries.mergeAt joinState target (flowInto A F G S target).1).2.toNat := by
  unfold enterTarget
  dsimp only
  split
  · next pushed =>
      rw [pushed.1]
      simp
  · exact Nat.le_add_right _ _

theorem enterTarget_paid (canonical : S.Canonical) (inside : target ∈ edgeTargets F) :
    Paid F S (enterTarget A F G S target) := by
  have pushed := enterTarget_worklist (A := A) (F := F) (G := G) (S := S) target
  have heavier := mergeAt_weight (entryLoad F) (m := S.blockEntries) inside fun old found =>
    entryLoad_joinState (canonical.entries found)
      (passedTo_flowInto (A := A) (F := F) (G := G) canonical target)
  unfold Paid load
  rw [enterTarget_entries]
  omega

/-! ### The round of a block -/

/-- What one part of a round keeps, and pays for. -/
structure Advances (F : FunctionData) (S S' : Solver) : Prop where
  canonical : S'.Canonical
  paid : Paid F S S'

theorem Advances.rfl (canonical : S.Canonical) : Advances F S S := ⟨canonical, Nat.le_refl _⟩

theorem Advances.trans (first : Advances F S S') (second : Advances F S' S'') : Advances F S S'' :=
  ⟨second.canonical, first.paid.trans second.paid⟩

theorem followEdge_grows (state : RangeState) (edge : LogicalEdge) :
    S.Grows (followEdge A F G state S edge) := by
  unfold followEdge
  split
  · exact .rfl
  · next edgeState _ =>
      have met : S.Grows { S with
          edgeStates := (S.edgeStates.mergeAt joinState edge edgeState).1 } :=
        ⟨.refl (fun _ => .rfl) _, mergeAt_grows (fun _ => .rfl) grows_joinState _ _ _⟩
      dsimp only
      split
      · exact met.trans (enterTarget_grows _)
      · exact met

theorem followEdge_advances (canonical : S.Canonical) (isState : state.Canonical)
    {edge : LogicalEdge} (inside : edge.target ∈ edgeTargets F) :
    Advances F S (followEdge A F G state S edge) := by
  unfold followEdge
  split
  · exact .rfl canonical
  · next edgeState isRefined =>
      have isEdge := RangeAnalysis.canonical_refineEdge canonical.ranges isState isRefined
      have met : Advances F S { S with
          edgeStates := (S.edgeStates.mergeAt joinState edge edgeState).1 } :=
        ⟨⟨canonical.ranges, canonical.entries,
          mergeAt_all RangeState.Canonical.joinState canonical.edges isEdge⟩, Nat.le_refl _⟩
      dsimp only
      split
      · exact met.trans ⟨enterTarget_canonical met.canonical _,
          enterTarget_paid met.canonical inside⟩
      · exact met

/-- An instruction changes neither the entries nor the edges nor the worklist. -/
theorem visitInst_frame (acc : Solver × RangeState) (inst : Inst) :
    (visitInst A F acc inst).1.blockEntries = acc.1.blockEntries ∧
      (visitInst A F acc inst).1.edgeStates = acc.1.edgeStates ∧
      (visitInst A F acc inst).1.worklist = acc.1.worklist := by
  unfold visitInst
  split <;> exact ⟨Eq.refl _, Eq.refl _, Eq.refl _⟩

theorem visitInst_canonical {acc : Solver × RangeState} (canonical : acc.1.Canonical)
    (isState : acc.2.Canonical) (inst : Inst) :
    (visitInst A F acc inst).1.Canonical ∧ (visitInst A F acc inst).2.Canonical := by
  unfold visitInst
  split
  · have isRange := RangeAnalysis.canonical_evalWithState (A := A) canonical.ranges
      (isState.erase (k := inst)) inst
    exact ⟨⟨canonical.ranges.observe isRange inst, canonical.entries, canonical.edges⟩,
      isState.erase.insert isRange⟩
  · exact ⟨⟨canonical.ranges, canonical.entries, canonical.edges⟩, isState⟩

theorem visitInsts_grows (insts : List Inst) (acc : Solver × RangeState) :
    acc.1.Grows (insts.foldl (visitInst A F) acc).1 := by
  refine List.foldlRecOn (motive := fun acc' : Solver × RangeState => acc.1.Grows acc'.1) _ _ .rfl
    fun acc' grown inst _ => grown.trans ?_
  obtain ⟨entries, edges, -⟩ := visitInst_frame (A := A) (F := F) acc' inst
  exact ⟨entries ▸ .refl (fun _ => .rfl) _, edges ▸ .refl (fun _ => .rfl) _⟩

theorem visitInsts_advances (insts : List Inst) (acc : Solver × RangeState)
    (canonical : acc.1.Canonical) (isState : acc.2.Canonical) :
    Advances F acc.1 (insts.foldl (visitInst A F) acc).1 ∧
      (insts.foldl (visitInst A F) acc).2.Canonical := by
  refine List.foldlRecOn (motive := fun acc' : Solver × RangeState =>
    Advances F acc.1 acc'.1 ∧ acc'.2.Canonical) _ _ ⟨.rfl canonical, isState⟩
    fun acc' holds inst _ => ?_
  obtain ⟨advanced, isState'⟩ := holds
  obtain ⟨canonical', isState''⟩ :=
    visitInst_canonical (A := A) (F := F) advanced.canonical isState'
    inst
  obtain ⟨entries, -, worklist⟩ := visitInst_frame (A := A) (F := F) acc' inst
  refine ⟨advanced.trans ⟨canonical', ?_⟩, isState''⟩
  rw [Paid, load, load, entries, worklist]

theorem visitBlock_grows (block : BasicBlock) (state : RangeState) :
    S.Grows (visitBlock A F G S block state) :=
  List.foldlRecOn (motive := fun S' : Solver => S.Grows S') _ _ (visitInsts_grows _ (S, state))
    fun _ grown edge _ => grown.trans (followEdge_grows _ edge)

theorem visitBlock_advances (canonical : S.Canonical) (isState : state.Canonical)
    (block : BasicBlock) : Advances F S (visitBlock A F G S block state) := by
  obtain ⟨walked, atEnd⟩ := visitInsts_advances (A := A) (F := F) ((F.blockInsts block).getD [])
    (S, state) canonical isState
  exact List.foldlRecOn (motive := fun S' : Solver => Advances F S S') _ _ walked
    fun _ advanced _ leaves => advanced.trans
      (followEdge_advances advanced.canonical atEnd (mem_edgeTargets leaves))

/-! ### One step and the whole run -/

theorem step_grows (stepped : step A F G S = some (.inl S')) : S.Grows S' := by
  unfold step at stepped
  split at stepped
  · cases stepped
  · next block rest _ =>
      have popped : S.Grows { S with worklist := rest, queued := S.queued.erase block } :=
        ⟨.refl (fun _ => .rfl) _, .refl (fun _ => .rfl) _⟩
      dsimp only at stepped
      split at stepped
      · cases stepped
        exact popped
      · next state _ =>
          cases stepped
          exact popped.trans (visitBlock_grows block state)

/-- A block is taken from the worklist, and those put on it are paid for. -/
theorem step_advances (canonical : S.Canonical) (stepped : step A F G S = some (.inl S')) :
    S'.Canonical ∧ S'.worklist.length + 1 + S.load F ≤ S.worklist.length + S'.load F := by
  unfold step at stepped
  split at stepped
  · cases stepped
  · next block rest isNext =>
      rw [isNext, List.length_cons]
      have popped : Canonical { S with worklist := rest, queued := S.queued.erase block } :=
        ⟨canonical.ranges, canonical.entries, canonical.edges⟩
      dsimp only at stepped
      split at stepped
      · cases stepped
        exact ⟨popped, Nat.le_refl _⟩
      · next state found =>
          cases stepped
          obtain ⟨canonical', paid⟩ := visitBlock_advances (A := A) (F := F) (G := G) popped
            (canonical.entries found) block
          refine ⟨canonical', ?_⟩
          have : load F { S with worklist := rest, queued := S.queued.erase block } = S.load F :=
            Eq.refl _
          unfold Paid at paid
          dsimp only at paid
          omega

theorem step_inr {last : Solver} (stepped : step A F G S = some (.inr last)) :
    last.worklist = [] := by
  unfold step at stepped
  split at stepped
  · next isEmpty =>
      cases stepped
      exact isEmpty
  · dsimp only at stepped
    split at stepped <;> cases stepped

theorem step_isSome (S : Solver) : (step A F G S).isSome := by
  unfold step
  split
  · rfl
  · dsimp only
    split <;> rfl

theorem start_canonical : (start A F G).Canonical where
  ranges := .empty
  entries := by
    have initial : (initialState A F G).Canonical := by
      refine List.foldlRecOn _ _ .empty fun state canonical parameter _ => canonical.insert ?_
      split
      · exact canonical_bounded _ _
      · exact canonical_full
    rw [start, ← AList.insert_empty]
    exact All.empty.insert initial
  edges := .empty

/-- All the load there can be. -/
def capacity (F : FunctionData) : Nat :=
  ∑ bb ∈ edgeTargets F, (∑ _ ∈ (F.blockParams bb).toFinset, (maxSize + 1) + 1)

theorem load_le (F : FunctionData) (S : Solver) : S.load F ≤ capacity F :=
  weight_le fun _ _ _ => weight_le fun _ _ _ => size_le _

theorem solve_isSome {fuel : Nat} (enough : capacity F + 1 < fuel) : (solve A F G fuel).isSome := by
  refine loop_total (Q := Solver.Canonical)
    (fun S => S.worklist.length + (capacity F - S.load F)) ?_ start_canonical ?_
  · intro S canonical
    obtain ⟨next, stepped⟩ := Option.isSome_iff_exists.mp (step_isSome (A := A) (F := F) (G := G) S)
    refine ⟨next, stepped, ?_⟩
    rintro S' rfl
    obtain ⟨canonical', paid⟩ := step_advances canonical stepped
    have := load_le F S'
    exact ⟨canonical', by omega⟩
  · have : (start A F G).worklist.length = 1 := rfl
    omega

/-! ### Widening -/

/-- What is known of a parameter where a block is entered. -/
def entryRange (S : Solver) (target : BasicBlock) (parameter : Inst) : IntRange :=
  ((S.blockEntries.lookup target).bind fun state => state.lookup parameter).getD .empty

/-- The parameter has been widened and capped, unless nothing flows into it. -/
def Widened (A : RangeAnalysis) (parameter : Inst) (old : IntRange)
    (incoming : RangeState) : Prop :=
  ∀ range, incoming.lookup parameter = some range →
    ∃ next, range = capped A parameter (old.widen next)

theorem widened_widenParam (entry : Option RangeState)
    {acc : RangeState × (BasicBlock × Inst → Nat)}
    (many : WIDEN_AFTER ≤ acc.2 (target, parameter)) :
    Widened A parameter ((entry.bind fun state => state.lookup parameter).getD .empty)
      (widenParam A entry target acc parameter).1 := by
  intro range found
  unfold widenParam at found
  split at found
  · next absent => simp [absent] at found
  · next next _ =>
      dsimp only at found
      rw [AList.lookup_insert, if_pos many] at found
      exact ⟨next, (Option.some.inj found).symm⟩

/-- Counters only go up, and other parameters are not touched. -/
theorem widenParam_other (entry : Option RangeState) (other : Inst)
    (acc : RangeState × (BasicBlock × Inst → Nat)) :
    acc.2 (target, parameter) ≤ (widenParam A entry target acc other).2 (target, parameter) ∧
      (parameter ≠ other →
        (widenParam A entry target acc other).1.lookup parameter = acc.1.lookup parameter) := by
  unfold widenParam
  split
  · exact ⟨Nat.le_refl _, fun _ => rfl⟩
  · refine ⟨?_, fun differ => AList.lookup_insert_ne differ⟩
    by_cases same : parameter = other
    · subst same
      have counts : ∀ (p : Prop) [Decidable p] (n : Nat), n ≤ if p then n + 1 else n := by
        intro p _ n
        split <;> omega
      dsimp only
      rw [Function.update_self]
      exact counts _ _
    · have differ : (target, parameter) ≠ (target, other) := fun h => same (Prod.mk.inj h).2
      dsimp only
      rw [Function.update_of_ne differ]

theorem lookup_foldl_widenParam (other : parameter ∉ params)
    {acc : RangeState × (BasicBlock × Inst → Nat)} :
    (params.foldl (widenParam A entry target) acc).1.lookup parameter = acc.1.lookup parameter :=
  List.foldlRecOn (motive := fun acc' : RangeState × (BasicBlock × Inst → Nat) =>
    acc'.1.lookup parameter = acc.1.lookup parameter) _ _ rfl fun acc' same _ isLater =>
      ((widenParam_other entry _ acc').2 (ne_of_mem_of_not_mem isLater other).symm).trans same

theorem widened_foldl (isParam : parameter ∈ params) {acc : RangeState × (BasicBlock × Inst → Nat)}
    (many : WIDEN_AFTER ≤ acc.2 (target, parameter)) :
    Widened A parameter ((entry.bind fun state => state.lookup parameter).getD .empty)
      (params.foldl (widenParam A entry target) acc).1 := by
  induction params generalizing acc with
  | nil => cases isParam
  | cons first params ih =>
    rw [List.foldl_cons]
    have many' := many.trans (widenParam_other (A := A) entry first acc).1
    by_cases later : parameter ∈ params
    · exact ih later many'
    · obtain rfl : parameter = first := (List.mem_cons.mp isParam).resolve_right later
      have here := widened_widenParam (A := A) entry many
      intro range found
      rw [lookup_foldl_widenParam later] at found
      exact here range found

/-- Where a block is entered, its entry is joined with what flows into it. -/
theorem entryRange_enterTarget (target : BasicBlock) (parameter : Inst) :
    (enterTarget A F G S target).entryRange target parameter =
      (((flowInto A F G S target).1.lookup parameter).elim (S.entryRange target parameter)
        (S.entryRange target parameter).join) := by
  rw [entryRange, enterTarget_entries, lookup_mergeAt, if_pos rfl, Option.bind_some, entryRange]
  cases S.blockEntries.lookup target with
  | none =>
    rw [Option.elim_none]
    cases (flowInto A F G S target).1.lookup parameter with
    | none => rfl
    | some range => rfl
  | some state =>
    rw [Option.elim_some, joinState, lookup_mergeAll, Option.bind_some]
    cases (flowInto A F G S target).1.lookup parameter with
    | none => rfl
    | some range =>
      cases state.lookup parameter with
      | none => rfl
      | some old => rfl

theorem enterTarget_widens (isHeader : target ∈ A.loopHeaders)
    (isParam : parameter ∈ F.blockParams target)
    (many : WIDEN_AFTER ≤ S.headerChanges (target, parameter)) :
    (enterTarget A F G S target).entryRange target parameter = S.entryRange target parameter ∨
      ∃ next, (enterTarget A F G S target).entryRange target parameter =
        (S.entryRange target parameter).join
          (capped A parameter ((S.entryRange target parameter).widen next)) := by
  have widened : Widened A parameter (S.entryRange target parameter)
      (flowInto A F G S target).1 := by
    unfold flowInto
    dsimp only
    rw [if_pos isHeader]
    exact widened_foldl isParam many
  rw [entryRange_enterTarget]
  cases found : (flowInto A F G S target).1.lookup parameter with
  | none => exact .inl rfl
  | some range =>
    obtain ⟨next, rfl⟩ := widened range found
    exact .inr ⟨next, rfl⟩

end Solver

/-- The worklist of the solver is empty after a number of steps that the function alone
bounds; on the way block entries and edge states only grow, and a parameter of a loop
header that has changed often enough is widened. -/
theorem solve_terminates (A : RangeAnalysis) (F : FunctionData) (G : CFG) :
    (∀ fuel, Solver.capacity F + 1 < fuel →
      ∃ last, Solver.solve A F G fuel = some last ∧ last.worklist = []) ∧
    (∀ S S', Solver.step A F G S = some (.inl S') → S.Grows S') ∧
    ∀ S : Solver, ∀ target ∈ A.loopHeaders, ∀ parameter ∈ F.blockParams target,
      WIDEN_AFTER ≤ S.headerChanges (target, parameter) →
      (S.enterTarget A F G target).entryRange target parameter = S.entryRange target parameter ∨
        ∃ next, (S.enterTarget A F G target).entryRange target parameter =
          (S.entryRange target parameter).join
            (Solver.capped A parameter ((S.entryRange target parameter).widen next)) := by
  refine ⟨fun fuel enough => ?_, fun S S' stepped => Solver.step_grows stepped,
    fun S target isHeader parameter isParam many =>
      Solver.enterTarget_widens isHeader isParam many⟩
  obtain ⟨last, solved⟩ :=
    Option.isSome_iff_exists.mp (Solver.solve_isSome (A := A) (G := G) enough)
  obtain ⟨_, -, stepped⟩ := loop_invariant (Q := fun _ => True) (fun _ _ => trivial) trivial solved
  exact ⟨last, solved, Solver.step_inr stepped⟩

end AnonCompiler.Opt
