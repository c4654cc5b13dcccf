import AnonCompiler.Lib.LoopEntry
import AnonCompiler.Opt.PreheaderRuns

/-!
# The loop behind a preheader

In the graph of the function with a preheader the edges from outside the loop go through
the new block, and nothing else changes.  So the loop keeps its blocks and its latches, the
new block is its preheader, and asking again changes nothing.
-/

set_option autoImplicit false

namespace AnonCompiler.Opt

open Ir Lib

/-! ## The graph -/

namespace CFG

variable {F : FunctionData} {G G' : CFG} {entry : BasicBlock} {fuel fuel' : Nat}

variable {bb : BasicBlock}

theorem ofEntry_unique (first : ofEntry F fuel entry = some G)
    (second : ofEntry F fuel' entry = some G') : G = G' := by
  obtain ⟨s, ran, rfl⟩ := Option.map_eq_some_iff.mp first
  obtain ⟨s', ran', rfl⟩ := Option.map_eq_some_iff.mp second
  have both := loop_mono ran (Nat.le_max_left fuel fuel')
  have both' := loop_mono ran' (Nat.le_max_right fuel fuel')
  cases both.symm.trans both'
  rfl

theorem Built.edge_iff (built : G.Built F) {p v : BasicBlock} :
    LoopAnalysis.Edge G p v ↔ p ∈ G.blocks ∧ ∃ e ∈ F.outgoingEdges p, e.target = v := by
  rw [LoopAnalysis.Edge, mem_predecessorsOf]
  exact and_congr_right fun member => mem_blockSuccessors (built.successors p member)

theorem Built.mem_blocks (built : G.Built F) (member : bb ∈ G.blocks) : bb ∈ F.blocks := by
  have isSome := built.successors bb member
  cases block : F.blockInsts bb with
  | none => simp [blockSuccessors, FunctionData.terminator, block] at isSome
  | some insts => exact FunctionData.mem_blocks block

theorem Built.closed_edge (built : G.Built F) (member : bb ∈ G.blocks) {e : LogicalEdge}
    (leaves : e ∈ F.outgoingEdges bb) : e.target ∈ G.blocks :=
  built.closed bb member _ ((mem_blockSuccessors (built.successors bb member)).mpr ⟨e, leaves, rfl⟩)

theorem Built.entry_mem (built : G.Built F) : G.entry ∈ G.blocks :=
  List.mem_of_mem_head? built.isRoot

/-! ### The search ends -/

theorem exists_blockSuccessors (terminated : F.Terminated) (placed : bb ∈ F.blocks) :
    ∃ targets, blockSuccessors F bb = some targets ∧ ∀ target ∈ targets, target ∈ F.blocks := by
  obtain ⟨inst, kind, isLast, isKind, isTerminator⟩ := terminated.terminator bb placed
  have inside := terminated.targets bb placed
  rw [FunctionData.outgoingEdges, isLast] at inside
  simp only [isKind] at inside
  rw [blockSuccessors, isLast, Option.bind_some, isKind]
  cases kind with
  | jump target args =>
    have placed' := inside _ (List.mem_singleton_self _)
    exact ⟨[target], by simp [checkTargets, placed'], by simpa using placed'⟩
  | branch cond tTarget tArgs fTarget fArgs =>
    have placedT := inside _ List.mem_cons_self
    have placedF := inside _ (List.mem_cons_of_mem _ (List.mem_singleton_self _))
    dsimp only at placedT placedF
    by_cases same : fTarget = tTarget
    · exact ⟨[tTarget], by simp [checkTargets, same, placedT], by simpa using placedT⟩
    · exact ⟨[tTarget, fTarget], by simp [checkTargets, same, placedT, placedF],
        by simpa using ⟨placedT, placedF⟩⟩
  | ret value => exact ⟨[], rfl, by simp⟩
  | tailCall callee args => exact ⟨[], rfl, by simp⟩
  | _ => cases isTerminator

/-- The search comes to an end. -/
theorem ofEntry_total (terminated : F.Terminated) (placed : entry ∈ F.blocks) :
    ∃ fuel, (ofEntry F fuel entry).isSome := by
  let start : Search := ⟨[], [], fun _ => [], [], [.enter entry]⟩
  refine ⟨DepthFirst.weight (successorsOf F) F.blocks start.search + 1, ?_⟩
  rw [ofEntry, Option.isSome_map]
  refine loop_total
    (Q := fun s => DepthFirst.Searching (successorsOf F) entry s.search ∧ Search.Tracked F s ∧
      ∀ v, .enter v ∈ s.stack → v ∈ F.blocks)
    (fun s => DepthFirst.weight (successorsOf F) F.blocks s.search) (fun {s} holds => ?_)
    ⟨DepthFirst.Searching.init _ entry, Search.init_tracked entry, ?_⟩ (Nat.lt_succ_self _)
  · obtain ⟨searching, tracked, known⟩ := holds
    have known' : ∀ v, .enter v ∈ s.search.stack → v ∈ F.blocks := by
      intro v member
      obtain ⟨visit, waits, same⟩ := List.mem_map.mp member
      cases visit with
      | enter bb =>
        cases same
        exact known _ waits
      | exit bb => cases same
    -- a turn that does not end the search
    have turn : ∀ {s'}, s.step F = some (.inl s') → (∀ v, .enter v ∈ s'.stack → v ∈ F.blocks) →
        ∃ next, s.step F = some next ∧ ∀ t, next = .inl t →
          (DepthFirst.Searching (successorsOf F) entry t.search ∧ Search.Tracked F t ∧
            ∀ v, .enter v ∈ t.stack → v ∈ F.blocks) ∧
          DepthFirst.weight (successorsOf F) F.blocks t.search <
            DepthFirst.weight (successorsOf F) F.blocks s.search := by
      intro s' stepped later
      obtain ⟨step, tracked'⟩ := Search.step_tracked tracked searching.nodup stepped
      refine ⟨_, stepped, fun t same => ?_⟩
      cases same
      exact ⟨⟨searching.step step, tracked', later⟩, step.weight_lt known'⟩
    cases stack : s.stack with
    | nil => exact ⟨.inr s, by rw [Search.step, stack], fun t same => by cases same⟩
    | cons visit rest =>
      have later : ∀ v, .enter v ∈ rest → v ∈ F.blocks := fun v member =>
        known v (by rw [stack]; exact List.mem_cons_of_mem _ member)
      cases visit with
      | exit bb =>
        have stepped : s.step F = some (.inl { s with
            active := s.active.erase bb
            visited := if bb ∈ s.visited then s.visited else bb :: s.visited
            postorder := if bb ∈ s.visited then s.postorder else bb :: s.postorder
            stack := rest }) := by rw [Search.step, stack]
        exact turn stepped later
      | enter bb =>
        by_cases seen : bb ∈ s.visited ∨ bb ∈ s.active
        · have stepped : s.step F = some (.inl { s with stack := rest }) := by
            rw [Search.step, stack]
            rcases seen with visited | active
            · exact if_pos visited
            · simp only [if_pos active, ite_self]
          exact turn stepped later
        rw [not_or] at seen
        obtain ⟨targets, found, inside⟩ :=
          exists_blockSuccessors terminated (known bb (by rw [stack]; exact List.mem_cons_self))
        have stepped : s.step F = some (.inl { s with
            active := bb :: s.active
            successors := Function.update s.successors bb targets
            stack := (targets.filter fun next => next ∉ bb :: s.active && next ∉ s.visited).map
              .enter ++ .exit bb :: rest }) := by
          rw [Search.step, stack]
          simp only [if_neg seen.1, if_neg seen.2, found, Option.map_some]
        refine turn stepped fun v member => ?_
        rcases List.mem_append.mp member with isNext | waits
        · obtain ⟨target, isTarget, same⟩ := List.mem_map.mp isNext
          cases same
          exact inside _ (List.mem_filter.mp isTarget).1
        · exact later v ((List.mem_cons.mp waits).resolve_left fun same => by cases same)
  · intro v member
    cases List.mem_singleton.mp member
    exact placed

end CFG

/-! ## The edges of the new function -/

section Edges

variable {P : Program} {F F' : FunctionData} {G G' : CFG} {l : Loop} {bb : BasicBlock} {fuel : Nat}
  (wellFormed : F.WellFormed) (built : G.Built F)

variable {header v : BasicBlock} {moves : Inst → Bool} {e : LogicalEdge}

/-- The preheader's only edge. -/
theorem Preheaded.outgoingEdges_new (h : Preheaded F F' header moves) :
    F'.outgoingEdges F.nextBlock =
      [⟨F.nextBlock, preheaderJump F header, .jump, header, preheaderParams F header⟩] := by
  have isLast : F'.terminator F.nextBlock = some (preheaderJump F header) := by
    rw [FunctionData.terminator, h.newBlock]
    rfl
  have isKind : F'.kind (preheaderJump F header) =
    some (.jump header (preheaderParams F header)) := by
    rw [FunctionData.kind, h.jump]
    rfl
  rw [FunctionData.outgoingEdges, isLast]
  simp only [isKind]

include wellFormed in
theorem Preheaded.terminator_old (h : Preheaded F F' header moves) (placed : bb ∈ F.blocks) :
    F'.terminator bb = F.terminator bb := by
  rw [FunctionData.terminator, FunctionData.terminator, h.oldBlock (wellFormed.block_lt placed).ne]

include wellFormed in
theorem Preheaded.kind_terminator (h : Preheaded F F' header moves) {inst : Inst}
    (isLast : F.terminator bb = some inst) :
    ∃ kind, F.kind inst = some kind ∧ F'.kind inst =
      some (kind.remapRefs id (if moves inst then divert header F.nextBlock else id)) := by
  obtain ⟨insts, block, last⟩ := Option.bind_eq_some_iff.mp isLast
  have laidOut := FunctionData.mem_layoutInsts block (List.mem_of_getLast? last)
  obtain ⟨⟨ty, kind⟩, found, -⟩ := wellFormed.laidOut laidOut
  have found' :=
    h.insts (not_isNew_of_insts wellFormed header (by simp [found] : F.insts inst ≠ none))
  refine ⟨kind, by rw [FunctionData.kind, found]; rfl, ?_⟩
  rw [FunctionData.kind, found', found]
  rfl

include wellFormed in
/-- The other blocks keep their edges, up to the target. -/
theorem Preheaded.outgoingEdges_old (h : Preheaded F F' header moves) (placed : bb ∈ F.blocks) :
    F'.outgoingEdges bb =
      (F.outgoingEdges bb).map fun e => { e with
        target := (if moves e.terminator then divert header F.nextBlock else id) e.target } := by
  rw [FunctionData.outgoingEdges, FunctionData.outgoingEdges, h.terminator_old wellFormed placed]
  cases isLast : F.terminator bb with
  | none => rfl
  | some inst =>
    obtain ⟨kind, isKind, isKind'⟩ := h.kind_terminator wellFormed isLast
    simp only [isKind, isKind']
    cases kind with
    | memZero dest byteLen => cases byteLen <;> rfl
    | _ => simp [InstKind.remapRefs]

include wellFormed built in
/-- Of the reachable blocks those outside the loop have their edges to the header moved. -/
theorem movesOf_iff (member : bb ∈ G.blocks) (leaves : e ∈ F.outgoingEdges bb)
    (isHeader : e.target = l.header) : movesOf F G l e.terminator = true ↔ bb ∉ l.body := by
  obtain ⟨isSource, isLast⟩ := terminator_of_edge leaves
  constructor
  · intro moves
    obtain ⟨e', isOutside, same⟩ := List.any_eq_true.mp moves
    obtain ⟨member', leaves', -, outside⟩ := (mem_outsideEdges built).mp isOutside
    have isLast' := (terminator_of_edge leaves').2
    rw [of_decide_eq_true same] at isLast'
    obtain ⟨insts, block, last⟩ := Option.bind_eq_some_iff.mp isLast
    obtain ⟨insts', block', last'⟩ := Option.bind_eq_some_iff.mp isLast'
    have sameBlock := wellFormed.block_unique block block' (List.mem_of_getLast? last)
      (List.mem_of_getLast? last')
    rwa [sameBlock]
  · intro outside
    refine List.any_eq_true.mpr ⟨e, (mem_outsideEdges built).mpr ?_, by simp⟩
    rw [isSource]
    exact ⟨member, leaves, isHeader, outside⟩

variable (h : Preheaded F F' l.header (movesOf F G l))

/-- Where an edge of a reachable block goes. -/
def movedTarget (F : FunctionData) (l : Loop) (bb target : BasicBlock) : BasicBlock :=
  if target = l.header ∧ bb ∉ l.body then F.nextBlock else target

include wellFormed built h

theorem Preheaded.outgoingEdges_eq (member : bb ∈ G.blocks) : F'.outgoingEdges bb =
    (F.outgoingEdges bb).map fun e => { e with target := movedTarget F l bb e.target } := by
  rw [h.outgoingEdges_old wellFormed (built.mem_blocks member)]
  refine List.map_congr_left fun e leaves => ?_
  congr 1
  by_cases isHeader : e.target = l.header
  · have moved := movesOf_iff wellFormed built member leaves isHeader
    by_cases outside : bb ∉ l.body
    · rw [moved.mpr outside, if_pos rfl, movedTarget, if_pos ⟨isHeader, outside⟩, divert,
        if_pos isHeader]
    · have kept : movedTarget F l bb e.target = e.target := if_neg fun both => outside both.2
      rw [if_neg fun moves => outside (moved.mp moves), kept]
      rfl
  · have kept : movedTarget F l bb e.target = e.target := if_neg fun both => isHeader both.1
    rw [kept]
    split
    · exact if_neg isHeader
    · rfl

/-- Nothing in the loop changes. -/
theorem Preheaded.outgoingEdges_inside (inside : bb ∈ l.body) (member : bb ∈ G.blocks) :
    F'.outgoingEdges bb = F.outgoingEdges bb := by
  rw [h.outgoingEdges_eq wellFormed built member]
  have same : ∀ e ∈ F.outgoingEdges bb,
    ({ e with target := movedTarget F l bb e.target } : LogicalEdge) =
      e := by
    intro e _
    rw [movedTarget, if_neg fun both => both.2 inside]
  rw [List.map_congr_left same, List.map_id']

theorem Preheaded.exists_edge (member : bb ∈ G.blocks) :
    (∃ e ∈ F'.outgoingEdges bb, e.target = v) ↔
      ∃ e ∈ F.outgoingEdges bb, movedTarget F l bb e.target = v := by
  simp only [h.outgoingEdges_eq wellFormed built member, List.mem_map, exists_exists_and_eq_and]

omit wellFormed built in
theorem Preheaded.exists_edge_new :
    (∃ e ∈ F'.outgoingEdges F.nextBlock, e.target = v) ↔ v = l.header := by
  simp [h.outgoingEdges_new, eq_comm]

/-! ## The graph of the new function -/

variable (built' : G'.Built F') (sameEntry : G'.entry = G.entry) (headerMem : l.header ∈ G.blocks)
  (enters : outsideEdges F G l ≠ [])

omit wellFormed h in
theorem movedTarget_mem (member : bb ∈ G.blocks) (leaves : e ∈ F.outgoingEdges bb) :
    movedTarget F l bb e.target = F.nextBlock ∨ movedTarget F l bb e.target ∈ G.blocks := by
  rw [movedTarget]
  split
  · exact .inl rfl
  · exact .inr (built.closed_edge member leaves)

include built' sameEntry headerMem

/-- The new block is the only one that joins. -/
theorem Preheaded.mem_old_or_new (member : bb ∈ G'.blocks) : bb ∈ G.blocks ∨ bb = F.nextBlock := by
  have path := built'.reached bb member
  rw [sameEntry] at path
  clear member
  induction path with
  | refl => exact .inl built.entry_mem
  | @tail p v _ step ih =>
    obtain ⟨-, e', leaves', rfl⟩ := built'.edge_iff.mp step
    rcases ih with old | rfl
    · obtain ⟨e, leaves, same⟩ := (h.exists_edge wellFormed built old).mp ⟨e', leaves', rfl⟩
      rw [← same]
      exact (movedTarget_mem built old leaves).symm
    · rw [h.exists_edge_new.mp ⟨e', leaves', rfl⟩]
      exact .inl headerMem

omit headerMem in
theorem Preheaded.mem_of_old (member : bb ∈ G.blocks) : bb ∈ G'.blocks := by
  have path := built.reached bb member
  induction path with
  | refl => exact sameEntry ▸ built'.entry_mem
  | @tail p v _ step ih =>
    obtain ⟨memberP, e, leaves, rfl⟩ := built.edge_iff.mp step
    have before := ih memberP
    obtain ⟨e', leaves', same⟩ := (h.exists_edge wellFormed built memberP).mpr ⟨e, leaves, rfl⟩
    have next := built'.closed_edge before leaves'
    rw [same, movedTarget] at next
    split at next
    · next moved =>
        -- through the new block
        obtain ⟨e₂, leaves₂, same₂⟩ := h.exists_edge_new.mpr rfl
        have last := built'.closed_edge next leaves₂
        rwa [same₂, ← moved.1] at last
    · exact next

omit headerMem in
include enters in
theorem Preheaded.mem_new : F.nextBlock ∈ G'.blocks := by
  obtain ⟨e, isOutside⟩ := List.exists_mem_of_ne_nil _ enters
  obtain ⟨member, leaves, isHeader, outside⟩ := (mem_outsideEdges built).mp isOutside
  obtain ⟨e', leaves', same⟩ := (h.exists_edge wellFormed built member).mpr ⟨e, leaves, rfl⟩
  have next := built'.closed_edge (h.mem_of_old wellFormed built built' sameEntry member) leaves'
  rwa [same, movedTarget, if_pos ⟨isHeader, outside⟩] at next

include enters in
/-- The edges from outside go through the new block. -/
theorem Preheaded.edge_iff {p : BasicBlock} : LoopAnalysis.Edge G' p v ↔
    ViaEntry (LoopAnalysis.Edge G) (· ∈ l.body) l.header F.nextBlock p v := by
  rw [built'.edge_iff]
  constructor
  · rintro ⟨member, step⟩
    rcases h.mem_old_or_new wellFormed built built' sameEntry headerMem member with old | rfl
    · obtain ⟨e, leaves, rfl⟩ := (h.exists_edge wellFormed built old).mp step
      have edge : LoopAnalysis.Edge G p e.target := built.edge_iff.mpr ⟨old, e, leaves, rfl⟩
      rw [movedTarget]
      split
      · next moved => exact .enter (moved.1 ▸ edge) moved.2
      · next kept =>
          exact .kept edge fun isHeader => not_not.mp fun outside => kept ⟨isHeader, outside⟩
    · rw [h.exists_edge_new.mp step]
      exact .arrive
  · intro step
    cases step with
    | kept step stays =>
      obtain ⟨old, e, leaves, rfl⟩ := built.edge_iff.mp step
      refine ⟨h.mem_of_old wellFormed built built' sameEntry old,
        (h.exists_edge wellFormed built old).mpr ⟨e, leaves, ?_⟩⟩
      exact if_neg fun both => both.2 (stays both.1)
    | enter step outside =>
      obtain ⟨old, e, leaves, isHeader⟩ := built.edge_iff.mp step
      refine ⟨h.mem_of_old wellFormed built built' sameEntry old,
        (h.exists_edge wellFormed built old).mpr ⟨e, leaves, ?_⟩⟩
      exact if_pos ⟨isHeader, outside⟩
    | arrive =>
      exact ⟨h.mem_new wellFormed built built' sameEntry enters, h.exists_edge_new.mpr rfl⟩

include enters in
/-- The new block is the preheader. -/
theorem Preheaded.getPreheader {l' : Loop} (isHeader : l'.header = l.header)
    (sameBody : ∀ bb, bb ∈ l'.body ↔ bb ∈ l.body) (within : ∀ bb ∈ l.body, bb ∈ G.blocks) :
    l'.getPreheader G' = some F.nextBlock := by
  have fresh : ∀ bb ∈ G.blocks, bb ≠ F.nextBlock := fun bb member =>
    (wellFormed.block_lt (built.mem_blocks member)).ne
  have edges := fun {p v} => h.edge_iff (p := p) (v := v) wellFormed built built' sameEntry
    headerMem enters
  have outside : (G'.predecessorsOf l'.header).filter (fun bb => !l'.contains bb) =
    [F.nextBlock] := by
    refine List.perm_singleton.mp ((List.perm_ext_iff_of_nodup ?_ (List.nodup_singleton _)).mpr ?_)
    · exact (built'.nodup.filter _).filter _
    · intro bb
      have isEdge : bb ∈ G'.predecessorsOf l.header ↔ LoopAnalysis.Edge G' bb l.header := Iff.rfl
      rw [List.mem_filter, List.mem_singleton, isHeader, isEdge, edges, Loop.contains]
      simp only [sameBody, Bool.not_eq_true', decide_eq_false_iff_not]
      constructor
      · rintro ⟨step, notInside⟩
        exact ViaEntry.eq_entry (fresh _ headerMem) step notInside
      · rintro rfl
        exact ⟨.arrive, fun inside => fresh _ (within _ inside) rfl⟩
  have successors := built'.successors _ (h.mem_new wellFormed built built' sameEntry enters)
  have isLast : F'.terminator F.nextBlock = some (preheaderJump F l.header) := by
    rw [FunctionData.terminator, h.newBlock]
    rfl
  have isKind : F'.kind (preheaderJump F l.header) =
    some (.jump l.header (preheaderParams F l.header)) := by
    rw [FunctionData.kind, h.jump]
    rfl
  rw [CFG.blockSuccessors, isLast, Option.bind_some, isKind] at successors
  rw [Loop.getPreheader, outside]
  simp only [CFG.eq_of_checkTargets successors]

omit built built' sameEntry headerMem in
/-- Every block still ends with a terminator. -/
theorem Preheaded.terminated (terminated : F.Terminated) (placed : l.header ∈ F.blocks) :
    F'.Terminated where
  terminator := by
    intro bb member
    rcases h.blocks.mp member with rfl | old
    · refine ⟨preheaderJump F l.header, .jump l.header (preheaderParams F l.header), ?_, ?_, rfl⟩
      · rw [FunctionData.terminator, h.newBlock]
        rfl
      · rw [FunctionData.kind, h.jump]
        rfl
    · obtain ⟨inst, kind, isLast, isKind, isTerminator⟩ := terminated.terminator bb old
      obtain ⟨kind', isKind', moved⟩ := h.kind_terminator wellFormed isLast
      cases isKind.symm.trans isKind'
      refine ⟨inst, _, (h.terminator_old wellFormed old).trans isLast, moved, ?_⟩
      cases kind with
      | memZero dest byteLen => cases isTerminator
      | _ => exact isTerminator
  targets := by
    intro bb member e leaves
    rcases h.blocks.mp member with rfl | old
    · rw [h.outgoingEdges_new] at leaves
      obtain rfl := List.mem_singleton.mp leaves
      exact h.blocks.mpr (.inr placed)
    · rw [h.outgoingEdges_old wellFormed old] at leaves
      obtain ⟨e₀, leaves₀, rfl⟩ := List.mem_map.mp leaves
      have inLayout := terminated.targets bb old e₀ leaves₀
      refine h.blocks.mpr ?_
      dsimp only
      split
      · rw [divert]
        split
        · exact .inl rfl
        · exact .inr inLayout
      · exact .inr inLayout

end Edges

/-! ## The result -/

def EnsurePreheader.keeps : EnsurePreheader → BasicBlock → Bool
  | existing _, _ => true
  | created n, bb => bb ≠ n

/-- Where an edge from outside to the header goes now. -/
def EnsurePreheader.retarget : EnsurePreheader → LogicalEdge → LogicalEdge
  | existing _, e => e
  | created n, e => { e with target := n }

/-- The function with a preheader: the same runs, but for visits of a new preheader; the edges
inside the loop as they were, those from outside with their own arguments; and, once the graph has
been built again, the same loop with the preheader, which is found at the second call. -/
structure Establishes (P : Program) (F : FunctionData) (G : CFG) (l : Loop) (F' : FunctionData)
    (r : EnsurePreheader) : Prop where
  refinedBy : ∀ X : Ctx, X.globals = P.globals → RefinedBy X F F' r.keeps
  refines : ∀ X : Ctx, X.globals = P.globals → Refines X F' F r.keeps
  inside : ∀ bb ∈ l.body, F'.outgoingEdges bb = F.outgoingEdges bb
  outside : ∀ e ∈ G.incomingEdges F l.header, e.source ∉ l.body →
    r.retarget e ∈ F'.outgoingEdges e.source
  rebuilt : ∃ fuel, (CFG.ofEntry F' fuel G.entry).isSome
  preheader : ∀ {fuel G'}, CFG.ofEntry F' fuel G.entry = some G' →
    ∀ {c : LoopAnalysis.Choices G'} {steps T' A'}, LoopAnalysis.ofCfgBy G' c steps = some (T', A') →
      ∃ l' ∈ A'.loops, l'.header = l.header ∧ (∀ bb, bb ∈ l'.body ↔ bb ∈ l.body) ∧
        l'.getPreheader G' = some r.block ∧
        ensurePreheader F' G' l' = some (F', some (.existing r.block))


section Result

variable {P : Program} {F : FunctionData} {G : CFG} {entry : BasicBlock} {fuel steps : Nat}
  {c : LoopAnalysis.Choices G} {T : DominanceTree} {A : LoopAnalysis} {l : Loop}

/-- Loops with the same blocks have the same preheader. -/
theorem Loop.getPreheader_congr {l' : Loop} (isHeader : l'.header = l.header)
    (sameBody : ∀ bb, bb ∈ l'.body ↔ bb ∈ l.body) : l'.getPreheader G = l.getPreheader G := by
  have contains : (fun bb => !l'.contains bb) = fun bb => !l.contains bb := by
    funext bb
    simp only [Loop.contains, sameBody]
  rw [Loop.getPreheader, Loop.getPreheader, isHeader, contains]

theorem mem_incomingEdges {bb : BasicBlock} {e : LogicalEdge} (h : e ∈ G.incomingEdges F bb) :
    e.source ∈ G.blocks ∧ e ∈ F.outgoingEdges e.source ∧ e.target = bb := by
  obtain ⟨source, isPred, member⟩ := List.mem_flatMap.mp h
  obtain ⟨leaves, isTarget⟩ := List.mem_filter.mp member
  obtain ⟨rfl, -⟩ := terminator_of_edge leaves
  exact ⟨(CFG.mem_predecessorsOf.mp isPred).1, leaves, of_decide_eq_true isTarget⟩

/-- A loop that has a preheader keeps it. -/
theorem establishes_existing (isCfg : CFG.ofEntry F fuel entry = some G)
    (described : A.Describes (LoopAnalysis.Edge G) G.entry) (isLoop : l ∈ A.loops)
    (notEntry : l.header ≠ G.entry) {n : BasicBlock} (found : l.getPreheader G = some n) :
    Establishes P F G l F (.existing n) where
  refinedBy := fun X _ => RefinedBy.refl F
  refines := fun X _ => Refines.refl F
  inside := fun _ _ => rfl
  outside := fun e incoming _ => (mem_incomingEdges incoming).2.1
  rebuilt := ⟨fuel, by rw [(CFG.ofEntry_built isCfg).1, isCfg]; rfl⟩
  preheader := by
    intro fuel' G' isCfg' c' steps' T' A' analysed
    rw [(CFG.ofEntry_built isCfg).1] at isCfg'
    obtain rfl := CFG.ofEntry_unique isCfg isCfg'
    have described' := (LoopAnalysis.ofCfgBy_describes isCfg c').2 _ _ _ analysed
    obtain ⟨l', isLoop', isHeader⟩ := (described'.header l.header).mpr
      ((described.header l.header).mp ⟨l, isLoop, rfl⟩)
    have sameBody : ∀ bb, bb ∈ l'.body ↔ bb ∈ l.body := fun bb => by
      rw [described'.body l' isLoop', described.body l isLoop, isHeader]
    have found' := (Loop.getPreheader_congr isHeader sameBody).trans found
    refine ⟨l', isLoop', isHeader, sameBody, found', ?_⟩
    rw [ensurePreheader, if_neg (isHeader ▸ notEntry), found']
    rfl

/-- A new block becomes the preheader. -/
theorem establishes_created (wellFormed : F.WellFormed) (ssa : F.Ssa) (shaped : F.Shaped P)
    (terminated : F.Terminated) (isEntry : F.entryBlock = some G.entry) (built : G.Built F)
    (described : A.Describes (LoopAnalysis.Edge G) G.entry) (isLoop : l ∈ A.loops)
    (notEntry : l.header ≠ G.entry) (room : preheaderJump F l.header < globalIdStart)
    (enters : outsideEdges F G l ≠ []) {F' : FunctionData}
    (h : Preheaded F F' l.header (movesOf F G l)) :
    Establishes P F G l F' (.created F.nextBlock) := by
  obtain ⟨latch, back⟩ := (described.header l.header).mp ⟨l, isLoop, rfl⟩
  have within : ∀ bb ∈ l.body, bb ∈ G.blocks := fun bb inside =>
    LoopAnalysis.inLoop_mem built back ((described.body l isLoop bb).mp inside)
  have headerMem : l.header ∈ G.blocks := LoopAnalysis.inLoop_mem built back (.inl rfl)
  have placed := built.mem_blocks headerMem
  have notNew : ∀ bb ∈ G.blocks, bb ≠ F.nextBlock := fun bb member =>
    (wellFormed.block_lt (built.mem_blocks member)).ne
  refine ⟨fun X globals => h.refinedBy room wellFormed ssa shaped globals, fun X globals =>
    h.refines room wellFormed ssa shaped globals terminated (notNew _ headerMem), fun bb inside =>
    h.outgoingEdges_inside wellFormed built inside (within bb inside),
      fun e incoming outside => ?_, ?_, ?_⟩
  · obtain ⟨member, leaves, isTarget⟩ := mem_incomingEdges incoming
    rw [h.outgoingEdges_eq wellFormed built member]
    refine List.mem_map.mpr ⟨e, leaves, ?_⟩
    rw [movedTarget, if_pos ⟨isTarget, outside⟩]
    rfl
  · have isEntry' := h.entry.trans isEntry
    exact CFG.ofEntry_total (h.terminated wellFormed terminated placed)
      (FunctionData.entry_mem_blocks isEntry')
  · intro fuel' G' isCfg' c' steps' T' A' analysed
    obtain ⟨sameEntry, built'⟩ := CFG.ofEntry_built isCfg'
    have described' := (LoopAnalysis.ofCfgBy_describes isCfg' c').2 _ _ _ analysed
    have sameEdges : LoopAnalysis.Edge G' = ViaEntry (LoopAnalysis.Edge G)
        (InLoop (LoopAnalysis.Edge G) G.entry l.header) l.header F.nextBlock := by
      funext p v
      have inside : (· ∈ l.body) = InLoop (LoopAnalysis.Edge G) G.entry l.header :=
        funext fun bb => propext (described.body l isLoop bb)
      rw [← inside]
      exact propext (h.edge_iff wellFormed built built' sameEntry headerMem enters)
    rw [sameEdges, sameEntry] at described'
    have fresh : ∀ {p v}, LoopAnalysis.Edge G p v → p ≠ F.nextBlock ∧ v ≠ F.nextBlock := by
      intro p v step
      obtain ⟨member, e, leaves, rfl⟩ := built.edge_iff.mp step
      exact ⟨notNew _ member, notNew _ (built.closed_edge member leaves)⟩
    have oldEntry := notNew _ built.entry_mem
    have oldHeader := notNew _ headerMem
    obtain ⟨l', isLoop', isHeader⟩ := (described'.header l.header).mpr
      ⟨latch, (ViaEntry.backEdge_iff fresh oldEntry oldHeader).mpr back⟩
    have sameBody : ∀ bb, bb ∈ l'.body ↔ bb ∈ l.body := fun bb => by
      rw [described'.body l' isLoop', isHeader, described.body l isLoop]
      exact ViaEntry.inLoop_iff fresh oldEntry oldHeader
    have found := h.getPreheader wellFormed built built' sameEntry headerMem enters isHeader
      sameBody within
    refine ⟨l', isLoop', isHeader, sameBody, found, ?_⟩
    rw [ensurePreheader, if_neg (by rw [isHeader, sameEntry]; exact notEntry), found]
    rfl

/-- `ensure_preheader` leaves a loop at the entry alone.  Every other natural loop has a preheader
afterwards, and the function runs as before. -/
theorem ensurePreheader_correct (wellFormed : F.WellFormed) (ssa : F.Ssa) (types : F.WellTyped P)
    (shaped : F.Shaped P) (terminated : F.Terminated) (isEntry : F.entryBlock = some entry)
    (isCfg : CFG.ofEntry F fuel entry = some G)
    (analysed : LoopAnalysis.ofCfgBy G c steps = some (T, A)) (isLoop : l ∈ A.loops)
    (room : preheaderJump F l.header < globalIdStart) :
    (l.header = entry → ensurePreheader F G l = some (F, none)) ∧
      (l.header ≠ entry → ∃ F' r, ensurePreheader F G l = some (F', some r) ∧
        Establishes P F G l F' r) := by
  obtain ⟨rfl, built⟩ := CFG.ofEntry_built isCfg
  have described := (LoopAnalysis.ofCfgBy_describes isCfg c).2 _ _ _ analysed
  refine ⟨fun atEntry => if_pos atEntry, fun notEntry => ?_⟩
  obtain ⟨latch, back⟩ := (described.header l.header).mp ⟨l, isLoop, rfl⟩
  have headerMem : l.header ∈ G.blocks := LoopAnalysis.inLoop_mem built back (.inl rfl)
  cases found : l.getPreheader G with
  | some n =>
    refine ⟨F, .existing n, ?_, establishes_existing isCfg described isLoop notEntry found⟩
    rw [ensurePreheader, if_neg notEntry, found]
  | none =>
    have enters : outsideEdges F G l ≠ [] := by
      obtain ⟨p, avoids, step⟩ := exists_entry (built.reached _ headerMem) notEntry
      have outside : p ∉ l.body := fun inside => described.dominates l isLoop p inside avoids
      obtain ⟨member, e, leaves, isTarget⟩ := built.edge_iff.mp step
      obtain ⟨isSource, -⟩ := terminator_of_edge leaves
      rw [← isSource] at member leaves outside
      exact List.ne_nil_of_mem ((mem_outsideEdges built).mpr ⟨member, leaves, isTarget, outside⟩)
    obtain ⟨F', ran, h⟩ := ensurePreheader_created wellFormed types built isEntry
      (built.mem_blocks headerMem) notEntry found enters
    exact ⟨F', _, ran,
      establishes_created wellFormed ssa shaped terminated isEntry built described isLoop
      notEntry room enters h⟩

end Result

/-! ## Two functions -/

/-- Block 2 is a loop that is entered from the blocks 1 and 4 with different arguments. -/
def enteredTwice : Listing where
  retTy := .unit
  name := "f"
  paramsTy := [.int32]
  layout := [(1, [4]), (4, [5]), (2, [6]), (3, [7])]
  insts := [(1, ⟨.int32, .blockArgRef 0⟩), (2, ⟨.int32, .integer 7⟩), (3, ⟨.int32, .blockArgRef 0⟩),
    (4, ⟨.unit, .branch 1 2 [1] 4 []⟩), (5, ⟨.unit, .jump 2 [2]⟩),
    (6, ⟨.unit, .branch 3 2 [3] 3 []⟩), (7, ⟨.unit, .ret none⟩)]
  nextInst := 8
  blockParams := [(1, [1]), (2, [3])]
  nextBlock := 5

def enteredTwiceCfg : CFG := (CFG.ofEntry enteredTwice.toFunctionData 20 1).get (by decide)

theorem enteredTwice_terminated : enteredTwice.toFunctionData.Terminated where
  terminator := by
    intro bb member
    have isBlock : bb ∈ [1, 4, 2, 3] := member
    simp only [List.mem_cons, List.not_mem_nil, or_false] at isBlock
    rcases isBlock with rfl | rfl | rfl | rfl
    · exact ⟨4, _, rfl, rfl, rfl⟩
    · exact ⟨5, _, rfl, rfl, rfl⟩
    · exact ⟨6, _, rfl, rfl, rfl⟩
    · exact ⟨7, _, rfl, rfl, rfl⟩
  targets := by decide

theorem ensurePreheader_correct_enteredTwice :
    ∃ steps T A l, LoopAnalysis.ofCfgBy enteredTwiceCfg (.stable enteredTwiceCfg) steps =
      some (T, A) ∧
      l ∈ A.loops ∧ l.header = 2 ∧
      ∃ F' r, ensurePreheader enteredTwice.toFunctionData enteredTwiceCfg l = some (F', some r) ∧
        Establishes ⟨[], [], fun _ => none, [], none⟩ enteredTwice.toFunctionData enteredTwiceCfg l
          F' r := by
  have isCfg : CFG.ofEntry enteredTwice.toFunctionData 20 1 = some enteredTwiceCfg :=
    (Option.some_get (by decide)).symm
  obtain ⟨⟨steps, ended⟩, describes⟩ :=
    LoopAnalysis.ofCfgBy_describes isCfg (.stable enteredTwiceCfg)
  obtain ⟨⟨T, A⟩, analysed⟩ := Option.isSome_iff_exists.mp ended
  have into : LoopAnalysis.Edge enteredTwiceCfg 1 2 := by
    change 1 ∈ enteredTwiceCfg.predecessorsOf 2
    decide
  have again : LoopAnalysis.Edge enteredTwiceCfg 2 2 := by
    change 2 ∈ enteredTwiceCfg.predecessorsOf 2
    decide
  obtain ⟨l, isLoop, isHeader⟩ := ((describes _ _ _ analysed).header 2).mpr
    ⟨2, .single into, again, .refl 2⟩
  have table : enteredTwice.ssaBy [(1, [1]), (4, [1]), (2, [1, 3]), (3, [1, 3])] := by decide
  have notEntry : l.header ≠ 1 := by
    rw [isHeader]
    decide
  refine ⟨steps, T, A, l, analysed, isLoop, isHeader, ?_⟩
  exact (ensurePreheader_correct (P := ⟨[], [], fun _ => none, [], none⟩)
    (Listing.wellFormed_toFunctionData (L := enteredTwice) (by decide))
    (Listing.ssa_toFunctionData table)
      (Listing.wellTyped_toFunctionData (L := enteredTwice) (by decide))
    (Listing.shaped_toFunctionData rfl (by decide)) enteredTwice_terminated rfl isCfg analysed
      isLoop
    (by rw [isHeader]; decide)).2 notEntry

/-- The entry block jumps to itself. -/
def entryLoop : Listing where
  retTy := .unit
  name := "f"
  paramsTy := []
  layout := [(1, [1])]
  insts := [(1, ⟨.unit, .jump 1 []⟩)]
  nextInst := 2
  blockParams := []
  nextBlock := 2

def entryLoopCfg : CFG := (CFG.ofEntry entryLoop.toFunctionData 20 1).get (by decide)

/-- The loop at the entry has no preheader, and gets none. -/
theorem ensurePreheader_entryLoop :
    entryLoop.toFunctionData.WellFormed ∧ entryLoop.toFunctionData.Ssa ∧
      ∃ steps T A l, LoopAnalysis.ofCfgBy entryLoopCfg (.stable entryLoopCfg) steps = some (T, A) ∧
        l ∈ A.loops ∧ ensurePreheader entryLoop.toFunctionData entryLoopCfg l =
          some (entryLoop.toFunctionData, none) ∧ l.getPreheader entryLoopCfg = none := by
  have isCfg : CFG.ofEntry entryLoop.toFunctionData 20 1 = some entryLoopCfg :=
    (Option.some_get (by decide)).symm
  obtain ⟨⟨steps, ended⟩, describes⟩ := LoopAnalysis.ofCfgBy_describes isCfg (.stable entryLoopCfg)
  obtain ⟨⟨T, A⟩, analysed⟩ := Option.isSome_iff_exists.mp ended
  have described := describes _ _ _ analysed
  have again : LoopAnalysis.Edge entryLoopCfg 1 1 := by
    change 1 ∈ entryLoopCfg.predecessorsOf 1
    decide
  obtain ⟨l, isLoop, isHeader⟩ := (described.header 1).mpr ⟨1, .refl, again, .refl 1⟩
  have inside : 1 ∈ l.body := (described.body l isLoop 1).mpr (.inl isHeader.symm)
  have table : entryLoop.ssaBy [] := by decide
  refine ⟨Listing.wellFormed_toFunctionData (by decide), Listing.ssa_toFunctionData table,
    steps, T, A, l, analysed, isLoop, if_pos isHeader, ?_⟩
  have preds : entryLoopCfg.predecessorsOf l.header = [1] := by
    rw [isHeader]
    decide
  have contains : l.contains 1 = true := decide_eq_true inside
  rw [Loop.getPreheader, preds, List.filter_cons, contains]
  rfl

end AnonCompiler.Opt
