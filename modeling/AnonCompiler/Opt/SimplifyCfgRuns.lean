import AnonCompiler.Opt.SimplifyCfg

/-!
# What the simplification keeps

The blocks that only jump on are found by walking from each of them, and the order of the
walks does not matter.  With their predecessors redirected they can be left out.  A round
that changes something leaves fewer blocks or fewer branches, so the rounds come to an
end; the function they end with runs as the one they began with, and another round leaves
it alone.
-/

set_option autoImplicit false

namespace AnonCompiler.Opt.SimplifyCfg

open Ir Lib.Chains

/-! ## The blocks that only jump -/

section Candidates

variable {P : Program} {F : FunctionData} {found : List (BasicBlock × BasicBlock)}
  {bb t : BasicBlock} {order : Order}

/-- The block only jumps to `t`. -/
structure Trivial (F : FunctionData) (bb t : BasicBlock) : Prop where
  placed : bb ∈ F.blocks
  notEntry : F.entryBlock ≠ some bb
  noParams : F.blockParams bb = []
  jump : ∃ inst, F.blockInsts bb = some [inst] ∧ F.kind inst = some (.jump t [])

theorem jumpTarget_answers (valid : Valid P F) {insts : List Inst}
    (block : F.blockInsts bb = some insts) :
    ∃ target, jumpTarget P F bb insts = some target ∧ ∀ t, target = some t →
      F.blockParams bb = [] ∧ ∃ inst, insts = [inst] ∧ F.kind inst = some (.jump t []) := by
  unfold jumpTarget
  split
  · next inst =>
      obtain ⟨⟨ty, kind⟩, found, -⟩ := valid.wellFormed.laidOut
        (FunctionData.mem_layoutInsts block List.mem_cons_self)
      rw [valid.wellFormed.instData_eq found]
      refine ⟨_, rfl, fun t isTarget => ?_⟩
      cases kind with
      | jump target args =>
        dsimp only at isTarget
        split at isTarget
        · next only =>
            obtain ⟨rfl, noParams, -⟩ := only
            cases isTarget
            exact ⟨noParams, inst, rfl, by rw [FunctionData.kind, found]; rfl⟩
        · cases isTarget
      | _ => cases isTarget
  · exact ⟨none, rfl, fun t isTarget => by cases isTarget⟩

theorem candidates_spec (valid : Valid P F) :
    ∃ found, candidates P F = some found ∧ ∀ {bb t}, (bb, t) ∈ found → Trivial F bb t := by
  have each : ∀ entry ∈ F.layout.drop 1, F.blockInsts entry.1 = some entry.2 := fun entry member =>
    FunctionData.blockInsts_of_mem valid.wellFormed.blocks_nodup (List.mem_of_mem_drop member)
  have answers : ∀ entry ∈ F.layout.drop 1, ∃ target,
      (jumpTarget P F entry.1 entry.2).map (fun target => target.map (entry.1, ·)) =
        some target := by
    intro entry member
    obtain ⟨target, isTarget, -⟩ := jumpTarget_answers valid (each entry member)
    exact ⟨_, by rw [isTarget]; rfl⟩
  obtain ⟨found, all⟩ := Lib.mapM_isSome answers
  refine ⟨found.reduceOption, by rw [candidates, all]; rfl, fun {bb t} isCandidate => ?_⟩
  obtain ⟨⟨b, insts⟩, member, isFound⟩ :=
    Lib.mem_of_mapM all (List.reduceOption_mem_iff.mp isCandidate)
  obtain ⟨target, isTarget, spec⟩ := jumpTarget_answers valid (each _ member)
  rw [isTarget, Option.map_some, Option.some.injEq] at isFound
  obtain ⟨t', rfl, same⟩ := Option.map_eq_some_iff.mp isFound
  cases same
  obtain ⟨noParams, inst, rfl, isJump⟩ := spec t rfl
  refine ⟨List.mem_map_of_mem (List.mem_of_mem_drop member), fun isEntry => ?_, noParams, inst,
    each _ member, isJump⟩
  -- the entry block comes first
  have nodup := valid.wellFormed.blocks_nodup
  unfold FunctionData.entryBlock at isEntry
  rw [FunctionData.blocks] at nodup
  cases layout : F.layout with
  | nil => simp [layout] at member
  | cons first rest =>
    rw [layout] at isEntry member nodup
    have isFirst : first.1 = b := by simpa using isEntry
    refine (List.nodup_cons.mp nodup).1 (List.mem_map.mpr ⟨(b, [inst]), ?_, isFirst.symm⟩)
    simpa using member

theorem nextOf_isSome : nextOf found bb ≠ none ↔ bb ∈ found.map Prod.fst := by
  rw [nextOf, ← Option.isSome_iff_ne_none, List.lookup_isSome_iff, List.mem_map]
  exact exists_congr fun entry => and_congr_right fun _ => beq_iff_eq.trans eq_comm

theorem lookup_filterMap (g : BasicBlock → Option BasicBlock) (keys : List BasicBlock) :
    (keys.filterMap fun bb => (g bb).map (bb, ·)).lookup bb = if bb ∈ keys then g bb else none := by
  induction keys with
  | nil => simp
  | cons key keys ih =>
    cases isTarget : g key with
    | none =>
      rw [List.filterMap_cons_none (by simp [isTarget]), ih]
      by_cases here : bb = key
      · simp [here, isTarget]
      · simp [here]
    | some target =>
      rw [List.filterMap_cons_some (by rw [isTarget]; rfl), List.lookup_cons, ih]
      by_cases here : bb = key
      · simp [here, isTarget]
      · simp [here, beq_eq_false_iff_ne.mpr here]

/-- The walks end, and find the ends of the chains. -/
theorem finalTargets_spec (walks : order.Walks) (found : List (BasicBlock × BasicBlock)) :
    ∃ final, resolveAll
        (fun final => walk (nextOf found) final ((found.map Prod.fst).length + 1) [])
        (order.starts (found.map Prod.fst)) (fun _ => none) = some final ∧
      ∀ bb ∈ found.map Prod.fst, ∀ t, (final bb).join = some t ↔ Leads (nextOf found) bb t := by
  have starts : ∀ bb, bb ∈ order.starts (found.map Prod.fst) ↔ bb ∈ found.map Prod.fst := fun bb =>
    (walks.starts _).mem_iff
  have total : (resolveAll
      (fun final => walk (nextOf found) final ((found.map Prod.fst).length + 1) [])
      (order.starts (found.map Prod.fst)) fun _ => none).isSome := by
    refine resolveAll_total fun start member final => ?_
    exact walk_total (fun x isNext => nextOf_isSome.mp isNext)
      (nextOf_isSome.mpr ((starts start).mp member)) List.nodup_nil (List.nil_subset _) (by simp)
  obtain ⟨final, run⟩ := Option.isSome_iff_exists.mp total
  have unknown : Resolves (nextOf found) fun _ => none := fun none => by cases none
  obtain ⟨right, -, all⟩ :=
    resolveAll_spec (fun known walked => (walk_finds known .nil walked).1) unknown run
  refine ⟨final, run, fun bb isKey t => ?_⟩
  obtain ⟨resolved, isResolved⟩ := Option.isSome_iff_exists.mp (all bb ((starts bb).mpr isKey))
  rw [isResolved, Option.join_some]
  exact right isResolved t

theorem removable_spec (walks : order.Walks) (found : List (BasicBlock × BasicBlock)) :
    ∃ moved, removable order found = some moved ∧ ∀ bb t, moved.lookup bb = some t ↔
      bb ∈ found.map Prod.fst ∧ Leads (nextOf found) bb t := by
  obtain ⟨final, run, spec⟩ := finalTargets_spec walks found
  refine ⟨_, by rw [removable, run]; rfl, fun bb t => ?_⟩
  rw [lookup_filterMap]
  by_cases isKey : bb ∈ found.map Prod.fst
  · rw [if_pos isKey, spec bb isKey]
    exact (and_iff_right isKey).symm
  · rw [if_neg isKey]
    exact iff_of_false (by simp) fun both => isKey both.1

/-- The order of the walks does not matter. -/
theorem removable_order {order' : Order} (walks : order.Walks) (walks' : order'.Walks)
    (found : List (BasicBlock × BasicBlock)) : removable order found = removable order' found := by
  obtain ⟨final, run, spec⟩ := finalTargets_spec walks found
  obtain ⟨final', run', spec'⟩ := finalTargets_spec walks' found
  rw [removable, removable, run, run']
  refine congrArg some (List.filterMap_congr fun bb isKey => ?_)
  congr 1
  exact Option.ext fun t => (spec bb isKey t).trans (spec' bb isKey t).symm

end Candidates

/-! ## Redirecting the predecessors -/

/-- Where a block that is taken out leads. -/
def onwardOf (moved : List (BasicBlock × BasicBlock)) (bb : BasicBlock) : BasicBlock :=
  (moved.lookup bb).getD bb

/-- The copy of a terminator has all its arms moved; without a copy none has to be. -/
def Copied (moved : List (BasicBlock × BasicBlock)) (kind : InstKind)
    (copy : Option TerminatorRewrite) : Prop :=
  copy = none ∧ kind.remapRefs id (onwardOf moved) = kind ∨
    goesOn kind = true ∧ ∃ rewrite, copy = some rewrite ∧
      rewrite.kind = kind.remapRefs id (onwardOf moved)

section Retarget

variable {P : Program} {F : FunctionData} {moved : List (BasicBlock × BasicBlock)}
  {bb : BasicBlock} {terminator : Inst} {kind : InstKind} {rewrites : LogicalEdgeRewriter}

theorem remapRefs_of_stays {g : BasicBlock → BasicBlock} (stays : goesOn kind = false) :
    kind.remapRefs id g = kind := by
  have same := InstKind.remapRefs_id kind
  cases kind with
  | jump | branch => cases stays
  | memZero dest byteLen => cases byteLen <;> rfl
  | _ => exact same

/-- The arms of one terminator. -/
theorem retargetBlock (moved : List (BasicBlock × BasicBlock))
    (isTerminator : F.terminator bb = some terminator) (isKind : F.kind terminator = some kind)
    (fresh : rewrites.pending.lookup terminator = none) :
    ∃ rewrites', (F.outgoingEdges bb).foldlM (retargetEdge F moved) rewrites = some rewrites' ∧
      (∀ x, x ≠ terminator → rewrites'.pending.lookup x = rewrites.pending.lookup x) ∧
      Copied moved kind (rewrites'.pending.lookup terminator) := by
  have other : ∀ {x : Inst}, x ≠ terminator → (x == terminator) = false := beq_eq_false_iff_ne.mpr
  -- a new copy
  have copied : ∀ (copy : TerminatorRewrite) (pending : List (Inst × TerminatorRewrite)),
      goesOn kind = true → copy.kind = kind.remapRefs id (onwardOf moved) →
      (F.outgoingEdges bb).foldlM (retargetEdge F moved) rewrites =
        some ⟨(terminator, copy) :: pending⟩ →
      (∀ x, x ≠ terminator → pending.lookup x = rewrites.pending.lookup x) →
      ∃ rewrites', (F.outgoingEdges bb).foldlM (retargetEdge F moved) rewrites = some rewrites' ∧
        (∀ x, x ≠ terminator → rewrites'.pending.lookup x = rewrites.pending.lookup x) ∧
        Copied moved kind (rewrites'.pending.lookup terminator) := by
    intro copy pending isGoing isCopy run others
    refine ⟨_, run, fun x differs => ?_, .inr ⟨isGoing, copy, List.lookup_cons_self, isCopy⟩⟩
    rw [List.lookup_cons, other differs]
    exact others x differs
  cases kind with
  | jump target args =>
    have edges : F.outgoingEdges bb = [⟨bb, terminator, .jump, target, args⟩] := by
      simp [FunctionData.outgoingEdges, isTerminator, isKind]
    cases isMoved : moved.lookup target with
    | none =>
      refine ⟨rewrites, by simp [edges, retargetEdge, isMoved], fun _ _ => rfl,
        .inl ⟨fresh, ?_⟩⟩
      simp [InstKind.remapRefs, onwardOf, isMoved]
    | some t =>
      refine copied (.jump t args) rewrites.pending rfl ?_ ?_ fun _ _ =>
        rfl
      · simp [TerminatorRewrite.kind, InstKind.remapRefs, onwardOf, isMoved]
      · simp [edges, retargetEdge, isMoved, LogicalEdgeRewriter.retarget, LogicalEdgeRewriter.edit,
          fresh, isKind, TerminatorRewrite.snapshot, TerminatorRewrite.edit]
  | branch cond tTarget tArgs fTarget fArgs =>
    have edges : F.outgoingEdges bb = [⟨bb, terminator, .onTrue, tTarget, tArgs⟩,
        ⟨bb, terminator, .onFalse, fTarget, fArgs⟩] := by
      simp [FunctionData.outgoingEdges, isTerminator, isKind]
    cases isMoved : moved.lookup tTarget with
    | none =>
      cases isMoved' : moved.lookup fTarget with
      | none =>
        refine ⟨rewrites, by simp [edges, retargetEdge, isMoved, isMoved'], fun _ _ => rfl,
          .inl ⟨fresh, ?_⟩⟩
        simp [InstKind.remapRefs, onwardOf, isMoved, isMoved']
      | some f =>
        refine copied (.branch cond tTarget tArgs f fArgs) rewrites.pending
          rfl ?_ ?_ fun _ _ => rfl
        · simp [TerminatorRewrite.kind, InstKind.remapRefs, onwardOf, isMoved, isMoved']
        · simp [edges, retargetEdge, isMoved, isMoved', LogicalEdgeRewriter.retarget,
            LogicalEdgeRewriter.edit, fresh, isKind, TerminatorRewrite.snapshot,
            TerminatorRewrite.edit]
    | some t =>
      cases isMoved' : moved.lookup fTarget with
      | none =>
        refine copied (.branch cond t tArgs fTarget fArgs) rewrites.pending
          rfl ?_ ?_ fun _ _ => rfl
        · simp [TerminatorRewrite.kind, InstKind.remapRefs, onwardOf, isMoved, isMoved']
        · simp [edges, retargetEdge, isMoved, isMoved', LogicalEdgeRewriter.retarget,
            LogicalEdgeRewriter.edit, fresh, isKind, TerminatorRewrite.snapshot,
            TerminatorRewrite.edit]
      | some f =>
        -- the second arm is edited in the copy made for the first one
        refine copied (.branch cond t tArgs f fArgs)
          ((terminator, .branch cond t tArgs fTarget fArgs) :: rewrites.pending)
          rfl ?_ ?_ fun x differs => by rw [List.lookup_cons, other differs]
        · simp [TerminatorRewrite.kind, InstKind.remapRefs, onwardOf, isMoved, isMoved']
        · simp [edges, retargetEdge, isMoved, isMoved', LogicalEdgeRewriter.retarget,
            LogicalEdgeRewriter.edit, fresh, isKind, TerminatorRewrite.snapshot,
            TerminatorRewrite.edit]
  | _ =>
    have edges : F.outgoingEdges bb = [] := by
      simp [FunctionData.outgoingEdges, isTerminator, isKind]
    exact ⟨rewrites, by rw [edges]; rfl, fun _ _ => rfl, .inl ⟨fresh, remapRefs_of_stays rfl⟩⟩

/-- The terminators of all blocks. -/
theorem retargetBlocks (moved : List (BasicBlock × BasicBlock)) (rewrites : LogicalEdgeRewriter)
    (wellFormed : F.WellFormed) {blocks : List BasicBlock} (nodup : blocks.Nodup)
    (ends : ∀ bb ∈ blocks, ∃ terminator kind, F.terminator bb = some terminator ∧
      F.kind terminator = some kind)
    (fresh : ∀ bb ∈ blocks, ∀ terminator, F.terminator bb = some terminator →
      rewrites.pending.lookup terminator = none) :
    ∃ rewrites', blocks.foldlM
        (fun rewrites source => (F.outgoingEdges source).foldlM (retargetEdge F moved) rewrites)
          rewrites = some rewrites' ∧
      (∀ x, (∀ bb ∈ blocks, F.terminator bb ≠ some x) →
        rewrites'.pending.lookup x = rewrites.pending.lookup x) ∧
      ∀ bb ∈ blocks, ∀ terminator kind, F.terminator bb = some terminator →
        F.kind terminator = some kind →
          Copied moved kind (rewrites'.pending.lookup terminator) := by
  induction blocks generalizing rewrites with
  | nil => exact ⟨rewrites, rfl, fun _ _ => rfl, fun bb member => absurd member List.not_mem_nil⟩
  | cons bb blocks ih =>
    rw [List.nodup_cons] at nodup
    rw [List.forall_mem_cons] at ends fresh
    obtain ⟨⟨terminator, kind, isTerminator, isKind⟩, endsLater⟩ := ends
    obtain ⟨rewrites₁, run, others, copied⟩ := retargetBlock moved isTerminator isKind
      (fresh.1 terminator isTerminator)
    -- no two blocks have one terminator
    have differs : ∀ b ∈ blocks, F.terminator b ≠ some terminator := by
      intro b member isOwn
      obtain ⟨insts, block, isLast⟩ := Option.bind_eq_some_iff.mp isTerminator
      obtain ⟨insts', block', isLast'⟩ := Option.bind_eq_some_iff.mp isOwn
      obtain rfl := wellFormed.block_unique block block' (List.mem_of_getLast? isLast)
        (List.mem_of_getLast? isLast')
      exact nodup.1 member
    have freshLater : ∀ b ∈ blocks, ∀ t, F.terminator b = some t →
        rewrites₁.pending.lookup t = none := by
      intro b member t isT
      rw [others t fun same => differs b member (same ▸ isT)]
      exact fresh.2 b member t isT
    obtain ⟨rewrites₂, later, others', copied'⟩ := ih rewrites₁ nodup.2 endsLater freshLater
    refine ⟨rewrites₂, by rw [List.foldlM_cons, run]; exact later, fun x notOne => ?_, ?_⟩
    · rw [List.forall_mem_cons] at notOne
      rw [others' x notOne.2, others x fun same => notOne.1 (same ▸ isTerminator)]
    · rw [List.forall_mem_cons]
      refine ⟨fun t k isT isK => ?_, copied'⟩
      cases isTerminator.symm.trans isT
      cases isKind.symm.trans isK
      rw [others' terminator differs]
      exact copied

/-- The function with its terminators redirected, all blocks still in place. -/
structure Redirected (F G : FunctionData) (moved : List (BasicBlock × BasicBlock)) : Prop where
  frame : G = { F with insts := G.insts }
  others : ∀ x, (∀ bb ∈ F.blocks, F.terminator bb ≠ some x) → G.insts x = F.insts x
  terminators : ∀ bb ∈ F.blocks, ∀ x ty kind, F.terminator bb = some x →
    F.insts x = some ⟨ty, kind⟩ → G.insts x = some ⟨ty, kind.remapRefs id (onwardOf moved)⟩

theorem retargetAll_spec (valid : Valid P F) {next : BasicBlock → Option BasicBlock}
    (detours : Detours F next (onwardOf moved)) :
    ∃ rewrites, retargetAll F moved = some rewrites ∧ acceptsAll P F rewrites = true ∧
      Redirected F (rewrites.apply F).1 moved := by
  obtain ⟨rewrites, run, others, copied⟩ := retargetBlocks moved .new
    valid.wellFormed valid.wellFormed.blocks_nodup
    (fun bb placed => by
      obtain ⟨terminator, kind, isTerminator, isKind, -⟩ := valid.terminated.terminator bb placed
      exact ⟨terminator, kind, isTerminator, isKind⟩)
    (fun _ _ _ _ => rfl)
  refine ⟨rewrites, run, ?_, rfl, fun x notOne => ?_,
    fun bb placed x ty kind isTerminator found => ?_⟩
  · refine List.all_eq_true.mpr fun entry _ => ?_
    rw [Bool.or_eq_true]
    by_cases counts : rewrites.pending.lookup entry.1 = some entry.2
    · refine .inr ?_
      -- what is copied is the terminator of a block
      obtain ⟨bb, placed, isTerminator⟩ : ∃ bb ∈ F.blocks, F.terminator bb = some entry.1 := by
        by_contra notOne
        rw [others entry.1 fun bb placed isOne => notOne ⟨bb, placed, isOne⟩] at counts
        cases counts
      obtain ⟨x, kind, isX, isKind, -⟩ := valid.terminated.terminator bb placed
      cases isTerminator.symm.trans isX
      rcases copied bb placed _ kind isTerminator isKind with
        ⟨none, -⟩ | ⟨isGoing, copy, isCopy, sameKind⟩
      · cases counts.symm.trans none
      · cases counts.symm.trans isCopy
        rw [sameKind]
        have fits : ∀ e ∈ F.outgoingEdges bb,
            DeadPhi.argsFit P F (onwardOf moved e.target) e.args = true := by
          intro e leaves
          refine decide_eq_true ?_
          rw [detours.types_onward valid.shaped, valid.shaped.edge leaves]
        cases kind with
        | jump target args =>
          have edges : F.outgoingEdges bb = [⟨bb, entry.1, .jump, target, args⟩] := by
            simp [FunctionData.outgoingEdges, isTerminator, isKind]
          rw [edges, List.forall_mem_singleton] at fits
          simpa [InstKind.remapRefs, DeadPhi.accepts] using fits
        | branch cond tTarget tArgs fTarget fArgs =>
          have edges : F.outgoingEdges bb = [⟨bb, entry.1, .onTrue, tTarget, tArgs⟩,
              ⟨bb, entry.1, .onFalse, fTarget, fArgs⟩] := by
            simp [FunctionData.outgoingEdges, isTerminator, isKind]
          rw [edges, List.forall_mem_cons, List.forall_mem_singleton] at fits
          simpa [InstKind.remapRefs, DeadPhi.accepts] using fits
        | _ => cases isGoing
    · exact .inl (decide_eq_true counts)
  · have none : rewrites.pending.lookup x = none := others x notOne
    simp [LogicalEdgeRewriter.apply, none]
  · have isKind : F.kind x = some kind := by
      rw [FunctionData.kind, found]
      rfl
    rcases copied bb placed x kind isTerminator isKind with
      ⟨none, same⟩ | ⟨isGoing, copy, isCopy, sameKind⟩
    · simp [LogicalEdgeRewriter.apply, none, found, same]
    · obtain rfl : ty = .unit := valid.typed.terminator found (isTerminator_of_goesOn isGoing)
      simp [LogicalEdgeRewriter.apply, isCopy, found, sameKind]

end Retarget

/-! ## Leaving the blocks out -/

/-- The next block of a block that is taken out. -/
def nextOut (found moved : List (BasicBlock × BasicBlock)) (bb : BasicBlock) : Option BasicBlock :=
  if (moved.lookup bb).isSome then nextOf found bb else none

section LeaveOut

variable {P : Program} {F G : FunctionData} {found moved : List (BasicBlock × BasicBlock)}
  {bb : BasicBlock}
  (isMoved : ∀ bb t, moved.lookup bb = some t ↔ bb ∈ found.map Prod.fst ∧ Leads (nextOf found) bb t)

include isMoved

theorem nextOut_eq_none : nextOut found moved bb = none ↔ moved.lookup bb = none := by
  unfold nextOut
  cases lookup : moved.lookup bb with
  | none => simp
  | some t => simpa using nextOf_isSome.mpr ((isMoved bb t).mp lookup).1

theorem detours (trivial : ∀ {bb t}, (bb, t) ∈ found → Trivial F bb t) :
    Detours F (nextOut found moved) (onwardOf moved) where
  leftOut {bb t} isNext := by
    unfold nextOut at isNext
    split at isNext
    · obtain ⟨-, notEntry, noParams, jump⟩ := trivial (mem_of_lookup isNext)
      exact ⟨notEntry, noParams, jump⟩
    · cases isNext
  leads bb := by
    unfold onwardOf
    cases lookup : moved.lookup bb with
    | none => exact .out ((nextOut_eq_none isMoved).mpr lookup)
    | some t =>
      -- all blocks of the chain are taken out
      have chain : ∀ {bb t}, Leads (nextOf found) bb t → Leads (nextOut found moved) bb t := by
        intro bb t leads
        induction leads with
        | @out t out =>
          refine .out ((nextOut_eq_none isMoved).mpr ?_)
          by_contra isSome
          obtain ⟨t', lookup'⟩ := Option.ne_none_iff_exists'.mp isSome
          exact nextOf_isSome.mpr ((isMoved t t').mp lookup').1 out
        | @step a b t step later ih =>
          refine .step ?_ ih
          have lookup' := (isMoved a t).mpr ⟨nextOf_isSome.mp (by simp [step]),
            .step step later⟩
          rw [nextOut, lookup']
          exact step
      exact chain ((isMoved bb t).mp lookup).2

omit isMoved in
/-- A terminator with other targets. -/
theorem outgoingEdges_remap {g : BasicBlock → BasicBlock} {x : Inst} {kind : InstKind}
    (isTerminator : F.terminator bb = some x) (isTerminator' : G.terminator bb = some x)
    (isKind : F.kind x = some kind) (isKind' : G.kind x = some (kind.remapRefs id g)) :
    G.outgoingEdges bb = (F.outgoingEdges bb).map fun e => { e with target := g e.target } := by
  unfold FunctionData.outgoingEdges
  rw [isTerminator, isTerminator']
  dsimp only
  rw [isKind, isKind']
  cases kind with
  | jump | branch => simp [InstKind.remapRefs]
  | memZero dest byteLen => cases byteLen <;> rfl
  | _ => rfl

section Contraction

variable (valid : Valid P F) (trivial : ∀ {bb t}, (bb, t) ∈ found → Trivial F bb t)
  (redirected : Redirected F G moved) {removed : List BasicBlock}
  (isRemoved : ∀ bb, bb ∈ removed ↔ moved.lookup bb ≠ none)

include isRemoved

theorem not_mem_removed : bb ∉ removed ↔ nextOut found moved bb = none := by
  rw [isRemoved, not_not, nextOut_eq_none isMoved]

omit isMoved isRemoved in
include redirected in
theorem removeBlocks_redirected (removed : List BasicBlock) :
    removed.foldl FunctionData.removeLayoutBasicblock G = { F with
      layout := F.layout.filter fun entry => entry.1 ∉ removed
      insts := fun x =>
        if ∃ bb ∈ removed, x ∈ (F.blockInsts bb).getD [] then none else G.insts x } := by
  rw [FunctionData.removeBlocks_eq, redirected.frame]
  rfl

/-- What is in a block that stays, or in none, stays. -/
theorem insts_stay {x : Inst}
    (stays : ∀ bb insts, F.blockInsts bb = some insts → x ∈ insts → nextOut found moved bb = none) :
    ¬ ∃ bb ∈ removed, x ∈ (F.blockInsts bb).getD [] := by
  rintro ⟨bb, gone, inside⟩
  cases block : F.blockInsts bb with
  | none => simp [block] at inside
  | some insts =>
    rw [block, Option.getD_some] at inside
    exact (not_mem_removed isMoved isRemoved).mpr (stays bb insts block inside) gone

include valid redirected

/-- The terminator of a block that stays goes to where its targets lead. -/
theorem terminator_redirected {x : Inst} {ty : Ty} {kind : InstKind}
    (stays : nextOut found moved bb = none) (isTerminator : F.terminator bb = some x)
    (found : F.insts x = some ⟨ty, kind⟩) :
    (removed.foldl FunctionData.removeLayoutBasicblock G).insts x =
      some ⟨ty, kind.remapRefs id (onwardOf moved)⟩ := by
  obtain ⟨insts, block, isLast⟩ := Option.bind_eq_some_iff.mp isTerminator
  have inside := List.mem_of_getLast? isLast
  rw [removeBlocks_redirected redirected]
  refine (if_neg ?_).trans (redirected.terminators bb (FunctionData.mem_blocks block) x ty kind
    isTerminator found)
  refine insts_stay isMoved isRemoved fun b insts' block' inside' => ?_
  rwa [← valid.wellFormed.block_unique block block' inside inside']

include trivial

/-- The redirected function without the blocks. -/
theorem contracted_of_redirected :
    Contracted F (removed.foldl FunctionData.removeLayoutBasicblock G) (nextOut found moved)
      (onwardOf moved) := by
  have whole := removeBlocks_redirected redirected removed
  have detours := detours isMoved trivial
  -- a block that stays keeps its terminator, with other targets
  have ends : ∀ {bb}, nextOut found moved bb = none →
      (removed.foldl FunctionData.removeLayoutBasicblock G).terminator bb = F.terminator bb := by
    intro bb stays
    have lookup := lookup_filter_key (· ∉ removed) F.layout bb
    rw [if_pos (decide_eq_true ((not_mem_removed isMoved isRemoved).mpr stays))] at lookup
    rw [whole, FunctionData.terminator, FunctionData.terminator]
    exact congrArg (·.bind List.getLast?) lookup
  have kinds : ∀ {bb x kind}, nextOut found moved bb = none → F.terminator bb = some x →
      F.kind x = some kind → (removed.foldl FunctionData.removeLayoutBasicblock G).kind x =
        some (kind.remapRefs id (onwardOf moved)) := by
    intro bb x kind stays isTerminator isKind
    obtain ⟨⟨ty, kind⟩, found', rfl⟩ := Option.map_eq_some_iff.mp isKind
    rw [FunctionData.kind,
      terminator_redirected isMoved valid redirected isRemoved stays isTerminator found']
    rfl
  refine { detours with
    layout := ?_, params := by rw [whole], blockParams := by rw [whole], nextInst := by rw [whole],
    nextBlock := by rw [whole], insts := fun x => ?_,
    kept := fun {bb insts} stays block x inside => ?_,
    edge := fun {bb e'} stays leaves => ?_, branch := fun {bb} stays after => ?_ }
  · rw [whole]
    refine List.filter_congr fun entry _ => ?_
    rw [Bool.eq_iff_iff, decide_eq_true_eq, Option.isNone_iff_eq_none]
    exact not_mem_removed isMoved isRemoved
  · by_cases gone : ∃ bb ∈ removed, x ∈ (F.blockInsts bb).getD []
    · obtain ⟨bb, isGone, inside⟩ := id gone
      obtain ⟨t, isNext⟩ := Option.ne_none_iff_exists'.mp fun none =>
        (not_mem_removed isMoved isRemoved).mpr none isGone
      obtain ⟨-, -, inst, block, isJump⟩ := detours.leftOut isNext
      rw [block, Option.getD_some, List.mem_singleton] at inside
      subst inside
      obtain ⟨data, found', isKind⟩ := Option.map_eq_some_iff.mp isJump
      refine .inr ⟨data, found', by rw [isKind]; rfl, fun {data'} after => ?_⟩
      rw [whole] at after
      dsimp only at after
      rw [if_pos gone] at after
      cases after
    · have same : (removed.foldl FunctionData.removeLayoutBasicblock G).insts x = G.insts x := by
        rw [whole]
        exact if_neg gone
      by_cases isOne : ∃ bb ∈ F.blocks, F.terminator bb = some x
      · obtain ⟨bb, placed, isTerminator⟩ := isOne
        obtain ⟨x', kind, isX, isKind, -⟩ := valid.terminated.terminator bb placed
        cases isTerminator.symm.trans isX
        obtain ⟨⟨ty, kind⟩, found', rfl⟩ := Option.map_eq_some_iff.mp isKind
        have after := redirected.terminators bb placed x ty kind isTerminator found'
        cases isGoing : goesOn kind with
        | false => exact .inl (by rw [same, after, remapRefs_of_stays isGoing, found'])
        | true =>
          refine .inr ⟨_, found', isGoing, fun {data'} isData => ?_⟩
          obtain rfl := Option.some.inj ((same.trans after).symm.trans isData)
          refine ⟨rfl, ?_, by rw [instUsage_remapTargets]; exact List.Subset.refl _⟩
          cases kind <;> first | rfl | cases isGoing
      · exact .inl (same.trans (redirected.others x fun bb placed isTerminator =>
          isOne ⟨bb, placed, isTerminator⟩))
  · have stay := insts_stay isMoved isRemoved (x := x) fun b insts' block' inside' => by
      rwa [← valid.wellFormed.block_unique block block' inside inside']
    rw [whole]
    dsimp only
    rw [if_neg stay]
    obtain ⟨⟨ty, kind⟩, found', -⟩ := valid.wellFormed.laidOut
      (FunctionData.mem_layoutInsts block inside)
    by_cases isOne : ∃ bb ∈ F.blocks, F.terminator bb = some x
    · obtain ⟨b, placed, isTerminator⟩ := isOne
      rw [redirected.terminators b placed x ty kind isTerminator found']
      exact Option.some_ne_none _
    · rw [redirected.others x fun b placed isTerminator => isOne ⟨b, placed, isTerminator⟩, found']
      exact Option.some_ne_none _
  · obtain ⟨rfl, isTerminator'⟩ := terminator_of_edge leaves
    have isTerminator := isTerminator'
    rw [ends stays] at isTerminator
    obtain ⟨insts, block, isLast⟩ := Option.bind_eq_some_iff.mp isTerminator
    obtain ⟨x, kind, isX, isKind, -⟩ :=
      valid.terminated.terminator _ (FunctionData.mem_blocks block)
    cases isTerminator.symm.trans isX
    rw [outgoingEdges_remap isTerminator isTerminator' isKind (kinds stays isTerminator isKind)]
      at leaves
    obtain ⟨e, leaves', rfl⟩ := List.mem_map.mp leaves
    exact ⟨e, leaves', rfl, rfl⟩
  · cases isTerminator : F.terminator bb with
    | none => simp [isBranch, ends stays, isTerminator] at after
    | some x =>
      obtain ⟨insts, block, -⟩ := Option.bind_eq_some_iff.mp isTerminator
      obtain ⟨x, kind, isX, isKind, -⟩ :=
        valid.terminated.terminator _ (FunctionData.mem_blocks block)
      cases isTerminator.symm.trans isX
      unfold isBranch at after ⊢
      rw [ends stays, isTerminator, Option.bind_some, kinds stays isTerminator isKind] at after
      rw [isTerminator, Option.bind_some, isKind]
      cases kind with
      | branch => rfl
      | memZero dest byteLen => cases byteLen <;> cases after
      | _ => cases after

/-- The transfer of control goes to where the target leads. -/
theorem goesOnward_of_redirected {X : Ctx} (globals : X.globals = P.globals) :
    GoesOnward X F (removed.foldl FunctionData.removeLayoutBasicblock G) (nextOut found moved)
      (onwardOf moved) := by
  intro a done m inst rest target vals place shaped current stays effect
  have contracted := contracted_of_redirected isMoved valid trivial redirected isRemoved
  obtain ⟨-, e, leaves, -, rfl, -⟩ := valid.wellFormed.edge_of_goto (place.toAt.placed current)
    effect
  obtain ⟨-, isTerminator⟩ := terminator_of_edge leaves
  obtain ⟨⟨ty, kind⟩, found'⟩ := exec_isSome effect
  exact exec_remap id (onwardOf moved) found'
    (terminator_redirected isMoved valid redirected isRemoved stays isTerminator found')
    (fun _ => ⟨rfl, rfl, rfl⟩)
    (fun x used => (contracted.sameOperand valid globals found' used a.env).carries) effect

end Contraction

end LeaveOut

/-! ## The pass -/

section Pass

variable {P : Program} {F G : FunctionData} {order order' : Order} {changed : Bool}

/-- Blocks that only jump are taken out. -/
theorem removeTrivialJumpBlock_spec (valid : Valid P F) (walks : order.Walks) :
    ∃ G changed, removeTrivialJumpBlock P order F = some (G, changed) ∧
      Simplified P F G changed := by
  obtain ⟨found, isFound, trivial⟩ := candidates_spec valid
  obtain ⟨moved, run, isMoved⟩ := removable_spec walks found
  by_cases none : moved = []
  · refine ⟨F, false, by simp [removeTrivialJumpBlock, isFound, run, none], .refl valid⟩
  · obtain ⟨rewrites, rewritten, accepted, redirected⟩ :=
      retargetAll_spec valid (detours isMoved trivial)
    have isRemoved : ∀ bb, bb ∈ order.removed (moved.map Prod.fst) ↔ moved.lookup bb ≠ .none :=
      fun bb => ((walks.removed _).mem_iff).trans nextOf_isSome.symm
    have contracted := contracted_of_redirected isMoved valid trivial redirected isRemoved
    refine ⟨(order.removed (moved.map Prod.fst)).foldl FunctionData.removeLayoutBasicblock
        (rewrites.apply F).1, true, by simp [removeTrivialJumpBlock, isFound, run, none, rewritten,
          accepted], ?_⟩
    refine contracted.simplified valid (fun globals _ =>
      goesOnward_of_redirected isMoved valid trivial redirected isRemoved globals)
        (by simp) fun _ => ?_
    -- one of the blocks is gone
    obtain ⟨⟨bb, t⟩, rest, isCons⟩ := List.exists_cons_of_ne_nil none
    have lookup : moved.lookup bb = some t := by rw [isCons, List.lookup_cons_self]
    obtain ⟨t', isNext⟩ := Option.ne_none_iff_exists'.mp fun stays =>
      Option.some_ne_none t (lookup.symm.trans ((nextOut_eq_none isMoved).mp stays))
    have isKey : nextOf found bb = some t' := by
      unfold nextOut at isNext
      split at isNext
      · exact isNext
      · cases isNext
    exact contracted.size_lt_of_left (trivial (mem_of_lookup isKey)).placed isNext

/-- The tables are walked in any order, and the function is the same. -/
theorem removeTrivialJumpBlock_order (walks : order.Walks) (walks' : order'.Walks) :
    removeTrivialJumpBlock P order F = removeTrivialJumpBlock P order' F := by
  have removed : ∀ (keys : List BasicBlock) (G : FunctionData),
      (order.removed keys).foldl FunctionData.removeLayoutBasicblock G =
        (order'.removed keys).foldl FunctionData.removeLayoutBasicblock G := by
    intro keys G
    have same : ∀ bb, bb ∈ order.removed keys ↔ bb ∈ order'.removed keys := fun bb =>
      (walks.removed keys).mem_iff.trans (walks'.removed keys).mem_iff.symm
    rw [FunctionData.removeBlocks_eq, FunctionData.removeBlocks_eq]
    simp only [same]
  unfold removeTrivialJumpBlock
  simp only [removable_order walks walks', removed]

variable (constants : ∀ {x data}, P.globals x = some data → Ctx.isConst data.kind = true)

include constants in
theorem round_spec (valid : Valid P F) (walks : order.Walks) :
    ∃ G changed, round P order F = some (G, changed) ∧ Simplified P F G changed := by
  obtain ⟨F₁, constant, run₁, spec₁⟩ := foldBranches_spec valid (constArm_settles valid)
  obtain ⟨F₂, same, run₂, spec₂⟩ :=
    foldBranches_spec spec₁.valid (sameArm_settles spec₁.valid constants)
  obtain ⟨F₃, trivial, run₃, spec₃⟩ := removeTrivialJumpBlock_spec spec₂.valid walks
  refine ⟨F₃, constant || same || trivial, ?_, (spec₁.trans spec₂).trans spec₃⟩
  simp [round, foldConstConditionBranch, foldBranchSameTargetAndArgs, run₁, run₂, run₃]

theorem round_order (walks : order.Walks) (walks' : order'.Walks) :
    round P order F = round P order' F := by
  unfold round
  simp only [removeTrivialJumpBlock_order walks walks']

/-- More rounds, in other orders, end with the same function. -/
theorem rounds_mono {orders orders' : Nat → Order} (walks : ∀ n, (orders n).Walks)
    (walks' : ∀ n, (orders' n).Walks) {fuel fuel' : Nat} {result : FunctionData × Bool}
    (run : rounds P orders fuel F = some result) (le : fuel ≤ fuel') :
    rounds P orders' fuel' F = some result := by
  induction fuel generalizing F fuel' result with
  | zero => cases run
  | succ fuel ih =>
    obtain ⟨fuel', rfl⟩ := Nat.exists_eq_add_of_le' (Nat.le_trans (Nat.le_add_left 1 fuel) le)
    rw [rounds, Option.bind_eq_bind, Option.bind_eq_some_iff] at run
    obtain ⟨⟨G, changed⟩, once, later⟩ := run
    rw [rounds, round_order (walks' fuel') (walks fuel), once]
    cases changed with
    | false => exact later
    | true =>
      obtain ⟨result', ended, rfl⟩ : ∃ result', rounds P orders fuel G = some result' ∧
          (result'.1, true) = result := Option.map_eq_some_iff.mp later
      simp [ih ended (Nat.le_of_succ_le_succ le)]

include constants in
/-- The rounds come to an end. -/
theorem rounds_spec {orders : Nat → Order} (walks : ∀ n, (orders n).Walks) (valid : Valid P F)
    {fuel : Nat} (enough : size F < fuel) :
    ∃ G changed, rounds P orders fuel F = some (G, changed) ∧ Simplified P F G changed ∧
      ∀ {order : Order}, order.Walks → round P order G = some (G, false) := by
  induction fuel generalizing F with
  | zero => exact absurd enough (Nat.not_lt_zero _)
  | succ fuel ih =>
    obtain ⟨G, changed, once, spec⟩ := round_spec constants valid (walks fuel)
    cases changed with
    | false =>
      obtain rfl := spec.same rfl
      refine ⟨G, false, by simp [rounds, once], spec, fun walks' => ?_⟩
      rw [round_order walks' (walks fuel), once]
    | true =>
      obtain ⟨H, changed, later, spec', settled⟩ := ih spec.valid
        (Nat.lt_of_lt_of_le (spec.smaller rfl) (Nat.le_of_lt_succ enough))
      exact ⟨H, true, by simp [rounds, once, later], spec.trans spec', settled⟩

/-- The tables as they are. -/
def Order.asFound : Order := ⟨id, id⟩

theorem Order.asFound_walks : Order.asFound.Walks :=
  ⟨fun keys => .refl keys, fun keys => .refl keys⟩

include constants in
/-- The pass comes to an end, with one function whatever the order of the tables is.  The function
runs as before, but for the visits of the blocks that are gone, and another round leaves it
alone. -/
theorem simplifyCfg_preserves (valid : Valid P F) :
    ∃ G changed, (∀ orders : Nat → Order, (∀ n, (orders n).Walks) → ∀ fuel, size F < fuel →
        runOn P orders fuel F = some (G, changed)) ∧
      Simplified P F G changed ∧
      ∀ order : Order, order.Walks → round P order G = some (G, false) := by
  obtain ⟨G, changed, run, spec, settled⟩ := rounds_spec constants
    (fun _ => Order.asFound_walks) valid (Nat.lt_succ_self (size F))
  by_cases isEmpty : F.entryBlock = none
  · -- without blocks there is nothing to do
    have noBlocks : size F = 0 := by
      unfold size FunctionData.blocks
      cases layout : F.layout with
      | nil => rfl
      | cons first rest => simp [FunctionData.entryBlock, layout] at isEmpty
    have unchanged : changed = false := by
      by_contra isChanged
      exact Nat.not_lt_zero _ (noBlocks ▸ spec.smaller (Bool.eq_true_of_not_eq_false isChanged))
    obtain rfl := spec.same unchanged
    refine ⟨G, changed, fun orders walks fuel enough => ?_, spec, fun order walks => settled walks⟩
    rw [runOn, if_pos isEmpty, unchanged]
  · refine ⟨G, changed, fun orders walks fuel enough => ?_, spec, fun order walks => settled walks⟩
    rw [runOn, if_neg isEmpty]
    exact rounds_mono (fun _ => Order.asFound_walks) walks run enough

end Pass

/-- The blocks 2 and 3 only jump on to block 4; the first branch is on a constant, and the
second one passes sums with swapped operands. -/
def detoursListing : Listing where
  retTy := .int32
  name := "f"
  paramsTy := [.int32]
  layout := [(1, [5]), (2, [6]), (3, [7]), (4, [8, 9, 10]), (5, [11])]
  insts := [(1, ⟨.int32, .blockArgRef 0⟩), (2, ⟨.int32, .integer 1⟩), (3, ⟨.int32, .integer 7⟩),
    (4, ⟨.int32, .blockArgRef 0⟩), (5, ⟨.unit, .branch 2 2 [] 3 []⟩), (6, ⟨.unit, .jump 3 []⟩),
    (7, ⟨.unit, .jump 4 []⟩), (8, ⟨.int32, .binary .add 1 3⟩), (9, ⟨.int32, .binary .add 3 1⟩),
    (10, ⟨.unit, .branch 1 5 [8] 5 [9]⟩), (11, ⟨.unit, .ret (some 4)⟩)]
  nextInst := 12
  blockParams := [(1, [1]), (5, [4])]
  nextBlock := 6

def noGlobals : Program := ⟨[], [], fun _ => none, [], none⟩

theorem detoursListing_valid : Valid noGlobals detoursListing.toFunctionData where
  wellFormed := Listing.wellFormed_toFunctionData (by decide)
  typed := Listing.wellTyped_toFunctionData (by decide)
  ssa := Listing.ssa_toFunctionData (show detoursListing.ssaBy
    [(1, [1]), (2, [1]), (3, [1]), (4, [1]), (5, [1, 4])] = true by decide)
  shaped := Listing.shaped_toFunctionData rfl (by decide)
  terminated :=
    { terminator := by
        intro bb member
        have isBlock : bb ∈ [1, 2, 3, 4, 5] := member
        simp only [List.mem_cons, List.not_mem_nil, or_false] at isBlock
        rcases isBlock with rfl | rfl | rfl | rfl | rfl
        · exact ⟨5, _, rfl, rfl, rfl⟩
        · exact ⟨6, _, rfl, rfl, rfl⟩
        · exact ⟨7, _, rfl, rfl, rfl⟩
        · exact ⟨10, _, rfl, rfl, rfl⟩
        · exact ⟨11, _, rfl, rfl, rfl⟩
      targets := by decide }
  operands := by
    intro inst data x found used
    have listed : (inst, data) ∈ detoursListing.insts := by
      unfold Program.instData at found
      split at found
      · cases found
      · exact mem_of_lookup found
    have known : ∀ entry ∈ detoursListing.insts, ∀ x ∈ entry.2.kind.instUsage,
        (noGlobals.instData detoursListing.toFunctionData x).any fun operand =>
          !operand.kind.isTerminator := by decide
    obtain ⟨operand, isOperand, noTerminator⟩ := (Option.any_eq_true _ _).mp (known _ listed x used)
    exact ⟨operand, isOperand, by simpa using noTerminator⟩

/-- What is left is the first block, the last one and the one before it. -/
theorem simplifyCfg_preserves_detours :
    (runOn noGlobals (fun _ => .asFound) 9 detoursListing.toFunctionData).map
        (fun result => (result.1.layout, result.1.kind 5, result.1.kind 10, result.2)) =
      some ([(1, [5]), (4, [8, 9, 10]), (5, [11])], some (.jump 4 []), some (.jump 5 [8]), true) ∧
    ∃ G changed, (∀ orders : Nat → Order, (∀ n, (orders n).Walks) → ∀ fuel,
        size detoursListing.toFunctionData < fuel →
          runOn noGlobals orders fuel detoursListing.toFunctionData = some (G, changed)) ∧
      Simplified noGlobals detoursListing.toFunctionData G changed ∧
      ∀ order : Order, order.Walks → round noGlobals order G = some (G, false) :=
  ⟨by decide, simplifyCfg_preserves (fun {x data} found => by cases found) detoursListing_valid⟩

end AnonCompiler.Opt.SimplifyCfg
