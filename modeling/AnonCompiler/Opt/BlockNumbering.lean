import AnonCompiler.Opt.ImmediateDominators

/-!
# The numbering of a function's blocks

On a function whose blocks end with terminators, the loops of `build_cfg_both`,
`rpo_path` and `idom` come to an end (`Cfg.build_total`), and the blocks that have
got a number are the reachable ones (`Cfg.mem_alloc`).
-/

set_option autoImplicit false

namespace AnonCompiler.Opt.DomTree

open Ir Lib

variable {F : FunctionData} {entry : BasicBlock} {s s' : CfgState}

/-! ## The search stays on reachable blocks and ends -/

def CfgVisit.target : CfgVisit → BasicBlock
  | .enter node => node
  | .falseArm _ target => target

/-- The search has met reachable blocks only. -/
structure Stays (F : FunctionData) (s : CfgState) : Prop where
  alloc : ∀ bb ∈ s.alloc, bb ∈ F.reachable
  stack : ∀ visit ∈ s.stack, visit.target ∈ F.reachable

variable {fuel fuel' : Nat}

theorem Stays.init (isEntry : F.entryBlock = some entry) : Stays F (.init entry) :=
  ⟨List.forall_mem_nil _, List.forall_mem_singleton.mpr (FunctionData.entry_reachable isEntry)⟩

theorem Stays.addEdge (h : Stays F s) (source : Nat) {target : BasicBlock}
    (reached : target ∈ F.reachable) : Stays F (s.addEdge source target) := by
  refine ⟨fun bb member => ?_, h.stack⟩
  rcases mem_checkOrAlloc.mp member with old | rfl
  · exact h.alloc bb old
  · exact reached

/-- A falseArm is taken off once and its target once more. -/
def CfgVisit.cost : CfgVisit → Nat
  | .enter _ => 1
  | .falseArm .. => 2

def unvisited (F : FunctionData) (visited : List BasicBlock) : Nat :=
  (F.blocks.filter (· ∉ visited)).length

def CfgState.weight (F : FunctionData) (s : CfgState) : Nat :=
  4 * unvisited F s.visited + (s.stack.map CfgVisit.cost).sum

theorem unvisited_lt {visited : List BasicBlock} {node : BasicBlock} (placed : node ∈ F.blocks)
    (fresh : node ∉ visited) : unvisited F (node :: visited) < unvisited F visited := by
  have split : F.blocks.filter (· ∉ node :: visited) =
      (F.blocks.filter (· ∉ visited)).filter (· ≠ node) := by
    rw [List.filter_filter]
    refine List.filter_congr fun bb _ => ?_
    simp only [List.mem_cons, not_or, Bool.decide_and, ne_eq]
  rw [unvisited, split]
  refine List.length_filter_lt_length_iff_exists.mpr ⟨node, ?_, by simp⟩
  exact List.mem_filter.mpr ⟨placed, by simpa using fresh⟩

section Step

variable (terminated : F.Terminated)

include terminated

theorem edge_reachable {bb : BasicBlock} (reached : bb ∈ F.reachable) {edge : LogicalEdge}
    (leaves : edge ∈ F.outgoingEdges bb) : edge.target ∈ F.reachable :=
  FunctionData.reachable_of_edge reached leaves
    (terminated.targets bb (FunctionData.reachable_subset_blocks reached) edge leaves)

theorem Stays.enter (h : Stays F s) {node : BasicBlock} {rest : List CfgVisit}
    (stack : s.stack = .enter node :: rest) (fresh : node ∉ s.visited) :
    ∃ s', CfgState.enter F { s with stack := rest } node = some s' ∧ Stays F s' ∧
      s'.weight F < s.weight F := by
  have reached : node ∈ F.reachable := h.stack (.enter node) (stack ▸ List.mem_cons_self)
  have placed := FunctionData.reachable_subset_blocks reached
  have fewer := unvisited_lt placed fresh
  obtain ⟨inst, kind, isLast, isKind, isTerminator⟩ := terminated.terminator node placed
  have entered : Stays F ⟨checkOrAlloc s.alloc node, s.graph, s.prece,
      node :: s.visited, rest⟩ := by
    refine ⟨fun bb member => ?_, fun visit member =>
      h.stack visit (stack ▸ List.mem_cons_of_mem _ member)⟩
    rcases mem_checkOrAlloc.mp member with old | rfl
    · exact h.alloc bb old
    · exact reached
  have found : (F.terminator node).bind F.kind = some kind :=
    by rw [isLast, Option.bind_some, isKind]
  have weighs : s.weight F =
      4 * unvisited F s.visited + (1 + (rest.map CfgVisit.cost).sum) := by
    rw [CfgState.weight, stack]
    rfl
  rw [CfgState.enter, found]
  cases kind with
  | jump target args =>
    have leaves : (⟨node, inst, .jump, target, args⟩ : LogicalEdge) ∈ F.outgoingEdges node := by
      simp [FunctionData.outgoingEdges, isLast, isKind]
    have next := edge_reachable terminated reached leaves
    have allocated := (entered.addEdge ((checkOrAlloc s.alloc node).idxOf node) next).alloc
    refine ⟨_, rfl, ⟨allocated, ?_⟩, ?_⟩
    · exact List.forall_mem_cons.mpr ⟨next, entered.stack⟩
    · rw [weighs]
      simp only [CfgState.weight, CfgState.addEdge, List.map_cons, List.sum_cons, CfgVisit.cost]
      omega
  | branch cond t tArgs f fArgs =>
    have leavesT : (⟨node, inst, .onTrue, t, tArgs⟩ : LogicalEdge) ∈ F.outgoingEdges node := by
      simp [FunctionData.outgoingEdges, isLast, isKind]
    have leavesF : (⟨node, inst, .onFalse, f, fArgs⟩ : LogicalEdge) ∈ F.outgoingEdges node := by
      simp [FunctionData.outgoingEdges, isLast, isKind]
    have nextT := edge_reachable terminated reached leavesT
    have nextF := edge_reachable terminated reached leavesF
    have allocated := (entered.addEdge ((checkOrAlloc s.alloc node).idxOf node) nextT).alloc
    refine ⟨_, rfl, ⟨allocated, ?_⟩, ?_⟩
    · exact List.forall_mem_cons.mpr ⟨nextT, List.forall_mem_cons.mpr ⟨nextF, entered.stack⟩⟩
    · rw [weighs]
      simp only [CfgState.weight, CfgState.addEdge, List.map_cons, List.sum_cons, CfgVisit.cost]
      omega
  | ret | tailCall =>
    refine ⟨_, rfl, entered, ?_⟩
    rw [weighs]
    simp only [CfgState.weight]
    omega
  | _ => cases isTerminator

theorem Stays.step (h : Stays F s) (more : s.stack ≠ []) :
    ∃ s', s.step F = some s' ∧ Stays F s' ∧ s'.weight F < s.weight F := by
  obtain ⟨alloc, graph, prece, visited, stack⟩ := s
  cases stack with
  | nil => exact absurd rfl more
  | cons visit rest =>
    have later : ∀ visit ∈ rest, visit.target ∈ F.reachable :=
      fun visit member => h.stack visit (List.mem_cons_of_mem _ member)
    cases visit with
    | enter node =>
      by_cases known : node ∈ visited
      · refine ⟨_, if_pos known, ⟨h.alloc, later⟩, ?_⟩
        simp only [CfgState.weight, List.map_cons, List.sum_cons, CfgVisit.cost]
        omega
      · obtain ⟨s', entered, stays, less⟩ := h.enter terminated rfl known
        exact ⟨s', (if_neg known).trans entered, stays, less⟩
    | falseArm source target =>
      have next : target ∈ F.reachable := h.stack (.falseArm source target) List.mem_cons_self
      have resumed : Stays F ⟨alloc, graph, prece, visited, rest⟩ := ⟨h.alloc, later⟩
      refine ⟨_, rfl, ⟨(resumed.addEdge source next).alloc,
        List.forall_mem_cons.mpr ⟨next, later⟩⟩, ?_⟩
      simp only [CfgState.weight, CfgState.addEdge, List.map_cons, List.sum_cons, CfgVisit.cost]
      omega

theorem Stays.loop_total {fuel : Nat} (h : Stays F s) (enough : s.weight F ≤ fuel) :
    ∃ s', cfgLoop F fuel s = some s' ∧ Stays F s' := by
  induction fuel generalizing s with
  | zero =>
    by_cases empty : s.stack = []
    · exact ⟨s, if_pos empty, h⟩
    · obtain ⟨s', -, -, less⟩ := h.step terminated empty
      omega
  | succ fuel ih =>
    by_cases empty : s.stack = []
    · exact ⟨s, if_pos empty, h⟩
    · obtain ⟨s', stepped, stays, less⟩ := h.step terminated empty
      obtain ⟨last, ran, staysLast⟩ := ih stays (by omega)
      refine ⟨last, ?_, staysLast⟩
      rw [cfgLoop, if_neg empty, stepped]
      exact ran

end Step

/-! ## More fuel changes nothing -/

theorem cfgLoop_mono (ran : cfgLoop F fuel s = some s') (le : fuel ≤ fuel') :
    cfgLoop F fuel' s = some s' := by
  induction fuel generalizing s fuel' with
  | zero =>
    unfold cfgLoop at ran
    split at ran
    · next empty =>
        cases fuel' <;> simpa [cfgLoop, empty] using ran
    · cases ran
  | succ fuel ih =>
    obtain ⟨fuel', rfl⟩ : ∃ n, fuel' = n + 1 := ⟨fuel' - 1, by omega⟩
    unfold cfgLoop at ran ⊢
    split at ran
    · next empty => rwa [if_pos empty]
    · next more =>
        obtain ⟨next, stepped, ran⟩ := Option.bind_eq_some_iff.mp ran
        rw [if_neg more, stepped]
        exact ih ran (by omega)

theorem rpoLoop_mono {graph : Nat → List Nat} {r : RpoState} {rpo : List Nat}
    (ran : rpoLoop graph fuel r = some rpo) (le : fuel ≤ fuel') :
    rpoLoop graph fuel' r = some rpo := by
  induction fuel generalizing r fuel' with
  | zero =>
    unfold rpoLoop at ran
    split at ran
    · next empty =>
        cases fuel' <;> simpa [rpoLoop, empty] using ran
    · cases ran
  | succ fuel ih =>
    obtain ⟨fuel', rfl⟩ : ∃ n, fuel' = n + 1 := ⟨fuel' - 1, by omega⟩
    unfold rpoLoop at ran ⊢
    split at ran
    · next empty => rwa [if_pos empty]
    · next more =>
        rw [if_neg more]
        exact ih ran (by omega)

/-! ## All of it -/

theorem Cfg.build_total (terminated : F.Terminated) (isEntry : F.entryBlock = some entry) :
    ∃ least, ∀ fuel, least ≤ fuel → ∃ cfg, Cfg.build F fuel = some cfg := by
  obtain ⟨s, ran, -⟩ := (Stays.init isEntry).loop_total terminated le_rfl
  obtain ⟨searched, empty⟩ := (Searched.init F entry).loop ran
  have bounded : ∀ v, Reachable (fun p v => v ∈ s.graph p) 0 v → v ∈ List.range s.alloc.length := by
    intro v path
    rw [searched.sameGraph] at path
    exact List.mem_range.mpr ((searched.reachable_iff empty).mp path)
  obtain ⟨rpoFuel, rpo, isRpo⟩ := rpoPath_total bounded
  have numbered : ∀ {fuel}, (CfgState.init entry).weight F ≤ fuel →
      buildCfgBoth F fuel = some s := by
    intro fuel enough
    rw [buildCfgBoth, isEntry, Option.bind_some, cfgLoop_mono ran enough]
  obtain ⟨idomFuel, ended⟩ := idom_total (ordered_of_search (numbered le_rfl) isRpo)
  refine ⟨(CfgState.init entry).weight F + rpoFuel + idomFuel, fun fuel enough => ?_⟩
  obtain ⟨map, ran⟩ := Option.isSome_iff_exists.mp (ended fuel (by omega))
  refine ⟨⟨s.alloc, s.prece, rpo, map⟩, ?_⟩
  rw [Cfg.build, numbered (by omega), Option.bind_some, rpoPath, rpoLoop_mono isRpo (by omega),
    Option.bind_some, ran]
  rfl

theorem Cfg.mem_alloc (terminated : F.Terminated) {cfg : Cfg} (built : Cfg.build F fuel = some cfg)
    {bb : BasicBlock} : bb ∈ cfg.alloc ↔ bb ∈ F.reachable := by
  have described := Cfg.describes built
  constructor
  · obtain ⟨s, numbered, rest⟩ := Option.bind_eq_some_iff.mp built
    obtain ⟨rpo, -, rest⟩ := Option.bind_eq_some_iff.mp rest
    obtain ⟨map, -, rfl⟩ := Option.map_eq_some_iff.mp rest
    obtain ⟨entry, isEntry, ran⟩ := Option.bind_eq_some_iff.mp numbered
    obtain ⟨last, ran', stays⟩ := (Stays.init isEntry).loop_total terminated le_rfl
    have same : s = last := by
      have both := cfgLoop_mono ran (Nat.le_max_left fuel ((CfgState.init entry).weight F))
      rw [cfgLoop_mono ran' (Nat.le_max_right fuel ((CfgState.init entry).weight F))] at both
      exact (Option.some.inj both).symm
    rw [same]
    exact stays.alloc bb
  · intro reached
    refine FunctionData.reachable_induction (R := fun b => b ∈ cfg.alloc) ?_ ?_ reached
    · intro entry isEntry
      obtain ⟨entry', isEntry', first⟩ := described.entry
      obtain rfl : entry = entry' := Option.some.inj (isEntry.symm.trans isEntry')
      exact List.mem_of_getElem? first
    · exact fun b known edge leaves _ => (described.edges known edge leaves).1

end AnonCompiler.Opt.DomTree
