import AnonCompiler.Lib.IterativeDominators
import AnonCompiler.Lib.TreeIntervals
import AnonCompiler.Opt.FlowGraph

/-!
# Dominance in the flow graph

The search of `CFG::new` leaves the reachable blocks in reverse postorder
(`CFG.Built`).  On such a graph `DominanceTree::from_cfg` comes to an end, every
block but the entry gets its immediate dominator, and the times of `number_tree`
answer whether one block dominates another (`DominanceTree.ofCfgBy_correct`).
-/

set_option autoImplicit false

namespace AnonCompiler.Opt

open Ir Lib

namespace CFG

/-! ## The search -/

section Search

open DepthFirst

variable {F : FunctionData} {s s' : Search}

def successorsOf (F : FunctionData) (bb : BasicBlock) : List BasicBlock :=
  (blockSuccessors F bb).getD []

def toVisit : Opt.Visit → DepthFirst.Visit BasicBlock
  | .enter bb => .enter bb
  | .exit bb => .exit bb

def Search.search (s : Search) : DepthFirst.State BasicBlock := ⟨s.postorder, s.stack.map toVisit⟩

/-- What the sets and the table of the search hold. -/
structure Search.Tracked (F : FunctionData) (s : Search) : Prop where
  active : s.active = s.search.stack.filterMap DepthFirst.Visit.exiting
  visited : s.visited = s.postorder
  successors : ∀ bb, s.search.Seen bb → blockSuccessors F bb = some (s.successors bb)

theorem Search.step_tracked (tracked : s.Tracked F)
    (nodup : (s.search.path ++ s.search.stack.filterMap DepthFirst.Visit.exiting).Nodup)
    (stepped : s.step F = some (.inl s')) :
    Step (successorsOf F) s.search s'.search ∧ s'.Tracked F := by
  obtain ⟨active, visited, successors, postorder, stack⟩ := s
  obtain ⟨isActive, isVisited, isSuccessors⟩ := tracked
  obtain rfl : visited = postorder := isVisited
  cases stack with
  | nil => cases stepped
  | cons visit rest =>
    cases visit with
    | enter bb =>
      have isExits : active = (rest.map toVisit).filterMap DepthFirst.Visit.exiting := isActive
      have seen_iff : ∀ {v}, State.Seen ⟨visited, rest.map toVisit⟩ v ↔
          v ∈ visited ∨ v ∈ active := by
        intro v
        rw [isExits, DepthFirst.mem_exiting]
        exact Iff.rfl
      have before : ∀ {v}, State.Seen ⟨visited, rest.map toVisit⟩ v →
          blockSuccessors F v = some (successors v) :=
        fun seen => isSuccessors _ (seen.imp_right (List.mem_cons_of_mem _))
      by_cases again : bb ∈ visited ∨ bb ∈ active
      · obtain rfl : (⟨active, visited, successors, visited, rest⟩ : Search) = s' := by
          rcases again with known | known
          · simpa [step, known] using stepped
          · by_cases known' : bb ∈ visited
            · simpa [step, known'] using stepped
            · simpa [step, known, known'] using stepped
        exact ⟨.skip (seen_iff.mpr again), isExits, rfl, fun v seen => before seen⟩
      · rw [not_or] at again
        simp only [step, if_neg again.1, if_neg again.2] at stepped
        obtain ⟨targets, isTargets, same⟩ := Option.map_eq_some_iff.mp stepped
        cases same
        have isSearch : (Search.search ⟨bb :: active, visited,
            Function.update successors bb targets, visited,
            (targets.filter fun next => next ∉ bb :: active && next ∉ visited).map .enter ++
              .exit bb :: rest⟩) =
            ⟨visited, (targets.filter fun next => next ∉ bb :: active && next ∉ visited).map
              .enter ++ .exit bb :: rest.map toVisit⟩ := by
          simp only [search, List.map_append, List.map_map, List.map_cons]
          rfl
        have isSuccessorsOf : successorsOf F bb = targets := by
          rw [successorsOf, isTargets, Option.getD_some]
        refine ⟨?_, ?_, rfl, ?_⟩
        · rw [isSearch]
          refine .enter (fun seen => (seen_iff.mp seen).elim again.1 again.2) ?_ ?_
          · rw [isSuccessorsOf]
            exact List.filter_sublist
          · intro w member
            rw [isSuccessorsOf] at member
            rw [seen_iff, List.mem_filter]
            by_cases same : w = bb
            · exact .inl same
            · by_cases known : w ∈ visited ∨ w ∈ active
              · exact .inr (.inl known)
              · rw [not_or] at known
                refine .inr (.inr ⟨member, ?_⟩)
                simp [same, known]
        · rw [isSearch]
          simp [DepthFirst.Visit.exiting, isExits]
        · rw [isSearch]
          intro v seen
          by_cases same : v = bb
          · subst same
            have updated : Function.update successors v targets v = targets :=
              Function.update_self ..
            exact isTargets.trans (congrArg some updated.symm)
          · have other : Function.update successors bb targets v = successors v :=
              Function.update_of_ne same ..
            refine (before (seen.imp_right fun member => ?_)).trans (congrArg some other.symm)
            simpa [same] using member
    | exit bb =>
      have isExits : active = bb :: (rest.map toVisit).filterMap DepthFirst.Visit.exiting :=
        isActive
      have fresh : bb ∉ visited := by
        intro member
        exact (List.nodup_append.mp nodup).2.2 bb member bb List.mem_cons_self rfl
      simp only [step, if_neg fresh] at stepped
      cases stepped
      refine ⟨.exit, ?_, rfl, ?_⟩
      · rw [isExits]
        exact List.erase_cons_head ..
      · intro v seen
        refine isSuccessors v ?_
        rcases seen with left | waits
        · rcases List.mem_cons.mp left with rfl | left
          · exact .inr List.mem_cons_self
          · exact .inl left
        · exact .inr (List.mem_cons_of_mem _ waits)

theorem Search.init_tracked (entry : BasicBlock) :
    Search.Tracked F ⟨[], [], fun _ => [], [], [.enter entry]⟩ where
  active := rfl
  visited := rfl
  successors := by
    rintro bb (absurd | absurd)
    · cases absurd
    · simp [search, toVisit] at absurd

end Search

/-- The graph holds what is reachable from the entry, in reverse postorder. -/
structure Built (F : FunctionData) (G : CFG) : Prop where
  isRoot : G.reversePostorder.head? = some G.entry
  nodup : G.reversePostorder.Nodup
  successors : ∀ bb ∈ G.reversePostorder, blockSuccessors F bb = some (G.successors bb)
  closed : ∀ bb ∈ G.reversePostorder, ∀ next ∈ G.successors bb, next ∈ G.reversePostorder
  reached : ∀ bb ∈ G.reversePostorder, Reachable (fun p v => p ∈ G.predecessorsOf v) G.entry bb
  earlier : ∀ bb ∈ G.reversePostorder, bb ≠ G.entry → ∃ p ∈ G.predecessorsOf bb,
    G.reversePostorder.idxOf p < G.reversePostorder.idxOf bb

section Built

variable {F : FunctionData} {G : CFG} {entry : BasicBlock} {fuel : Nat}

theorem mem_predecessorsOf {p bb : BasicBlock} :
    p ∈ G.predecessorsOf bb ↔ p ∈ G.reversePostorder ∧ bb ∈ G.successors p := by
  simp [predecessorsOf]

theorem ofEntry_built (built : ofEntry F fuel entry = some G) : G.entry = entry ∧ G.Built F := by
  obtain ⟨last, ran, rfl⟩ := Option.map_eq_some_iff.mp built
  obtain ⟨s, ⟨searching, tracked⟩, ended⟩ := loop_invariant
    (Q := fun s => DepthFirst.Searching (successorsOf F) entry s.search ∧ Search.Tracked F s)
    (fun {s t} holds stepped => by
      obtain ⟨searching, tracked⟩ := holds
      obtain ⟨step, tracked'⟩ := Search.step_tracked tracked searching.nodup stepped
      exact ⟨searching.step step, tracked'⟩)
    ⟨DepthFirst.Searching.init _ entry, Search.init_tracked entry⟩ ran
  have empty : s.stack = [] ∧ s = last := by
    unfold Search.step at ended
    split at ended
    · next none => exact ⟨none, Sum.inr.inj (Option.some.inj ended)⟩
    · split at ended
      · cases ended
      · split at ended
        · cases ended
        · obtain ⟨targets, -, same⟩ := Option.map_eq_some_iff.mp ended
          cases same
    · cases ended
  obtain ⟨none, rfl⟩ := empty
  obtain ⟨reached, nodup, isRoot, earlier⟩ := searching.finished (by simp [Search.search, none])
  have successors : ∀ bb ∈ s.postorder, blockSuccessors F bb = some (s.successors bb) :=
    fun bb member => tracked.successors bb (.inl member)
  have isSuccessor : ∀ {p v}, p ∈ s.postorder → (v ∈ successorsOf F p ↔ v ∈ s.successors p) := by
    intro p v member
    rw [successorsOf, successors p member, Option.getD_some]
  have preds : ∀ {p v}, p ∈ s.postorder → v ∈ successorsOf F p →
      p ∈ predecessorsOf ⟨entry, s.postorder, s.successors⟩ v :=
    fun member edge => mem_predecessorsOf.mpr ⟨member, (isSuccessor member).mp edge⟩
  have known : ∀ {p}, Reachable (fun p v => v ∈ successorsOf F p) entry p → p ∈ s.postorder :=
    fun path => (reached _).mp path
  refine ⟨rfl, isRoot, nodup, successors, ?_, ?_, ?_⟩
  · intro bb member next edge
    exact known (((reached bb).mpr member).tail ((isSuccessor member).mpr edge))
  · intro bb member
    have path := (reached bb).mpr member
    induction path with
    | refl => exact .refl
    | @tail p v before edge ih => exact (ih (known before)).tail (preds (known before) edge)
  · intro bb member notEntry
    obtain ⟨p, edge, lt⟩ := earlier bb member notEntry
    have memberP : p ∈ s.postorder := by
      by_contra absent
      have beyond : s.postorder.idxOf p = s.postorder.length := List.idxOf_eq_length_iff.mpr absent
      have inside : s.postorder.idxOf bb < s.postorder.length := List.idxOf_lt_length_of_mem member
      change s.postorder.idxOf p < s.postorder.idxOf bb at lt
      omega
    exact ⟨p, preds memberP edge, lt⟩

end Built

end CFG

/-! ## Immediate dominators -/

namespace DominanceTree

open IterativeDominators

theorem intersect_eq_climb (rpo : List BasicBlock) (idoms : BasicBlock → Option BasicBlock)
    (fuel : Nat) (lhs rhs : BasicBlock) :
    intersect rpo idoms fuel lhs rhs = climb rpo.idxOf idoms fuel lhs rhs := by
  induction fuel generalizing lhs rhs with
  | zero => rfl
  | succ fuel ih => simp only [intersect, climb, ih]

section Idoms

variable {F : FunctionData} {G : CFG} {preds : BasicBlock → List BasicBlock}
  {up : BasicBlock → BasicBlock} {idoms idoms' : BasicBlock → Option BasicBlock} {pos fuel : Nat}
  (built : G.Built F)
  (listing : Listing preds G.entry G.reversePostorder.tail G.reversePostorder.idxOf up)

variable {p q : BasicBlock} {nodes before : List BasicBlock}

include listing in
theorem intersect_joins
    (h : Invariant G.reversePostorder.idxOf preds G.entry G.reversePostorder.tail
    G.reversePostorder.idxOf up pos idoms)
    {m : BasicBlock} (setP : (idoms p).isSome) (setQ : (idoms q).isSome)
    (met : intersect G.reversePostorder idoms fuel q p = some m) :
    Joins G.reversePostorder.idxOf G.entry idoms p q m := by
  rw [intersect_eq_climb] at met
  obtain ⟨set, records⟩ := climb_joins (keyed_rank listing) h setQ setP met
  exact ⟨set, fun x => (records x).trans and_comm⟩

include built listing in
theorem intersect_total
    (h : Invariant G.reversePostorder.idxOf preds G.entry G.reversePostorder.tail
    G.reversePostorder.idxOf up pos idoms)
    (setP : (idoms p).isSome) (setQ : (idoms q).isSome)
    (enough : 2 * G.reversePostorder.length < fuel) :
    (intersect G.reversePostorder idoms fuel q p).isSome := by
  rw [intersect_eq_climb]
  refine climb_total (keyed_rank listing) h setQ setP ?_
  have short : ∀ {x}, (idoms x).isSome →
      G.reversePostorder.idxOf x < G.reversePostorder.length := by
    intro x set
    apply List.idxOf_lt_length_of_mem
    rw [order_eq_cons built.isRoot]
    exact h.node set
  have := short setP
  have := short setQ
  omega

include listing in
theorem idomPass_pass {changed : Bool} (isRest : G.reversePostorder.tail = before ++ nodes)
    (early : ∀ w ∈ before, G.reversePostorder.idxOf w < pos)
    (h : Invariant G.reversePostorder.idxOf preds G.entry G.reversePostorder.tail
    G.reversePostorder.idxOf up pos idoms)
    (ran : idomPass preds G fuel nodes idoms = some (idoms', changed)) :
    Pass G.reversePostorder.idxOf G.entry preds nodes idoms idoms' changed := by
  induction nodes generalizing idoms before pos changed with
  | nil =>
    cases ran
    exact .nil _
  | cons v nodes ih =>
    obtain ⟨member, h, soon⟩ := h.next listing isRest early
    rw [List.append_cons] at isRest
    unfold idomPass at ran
    split at ran
    · next none =>
        -- the block above has an entry
        have isUp : up v ∈ (preds v).filter fun pred => (idoms pred).isSome :=
          List.mem_filter.mpr ⟨(listing.up_mem member).1, h.up_set listing member⟩
        rw [none] at isUp
        cases isUp
    · next first others isList =>
        obtain ⟨new, found, ran⟩ := Option.bind_eq_some_iff.mp ran
        have meet : Meet G.reversePostorder.idxOf G.entry preds idoms v new :=
          meet_of_foldlM (fun setP setQ => intersect_joins listing h setP setQ) isList found
        have stepped := h.step listing member meet
        split at ran
        · next same =>
            rw [← same, Function.update_eq_self] at stepped
            exact .keep meet same (ih isRest soon stepped ran)
        · next differs =>
            obtain ⟨⟨last, flag⟩, later, same⟩ := Option.map_eq_some_iff.mp ran
            cases same
            exact .change meet differs (ih isRest soon stepped later)

include built listing in
theorem idomPass_total (isRest : G.reversePostorder.tail = before ++ nodes)
    (early : ∀ w ∈ before, G.reversePostorder.idxOf w < pos)
    (h : Invariant G.reversePostorder.idxOf preds G.entry G.reversePostorder.tail
    G.reversePostorder.idxOf up pos idoms)
    (enough : 2 * G.reversePostorder.length < fuel) :
    (idomPass preds G fuel nodes idoms).isSome := by
  induction nodes generalizing idoms before pos with
  | nil => rfl
  | cons v nodes ih =>
    obtain ⟨member, h, soon⟩ := h.next listing isRest early
    rw [List.append_cons] at isRest
    unfold idomPass
    split
    · next none =>
        have isUp : up v ∈ (preds v).filter fun pred => (idoms pred).isSome :=
          List.mem_filter.mpr ⟨(listing.up_mem member).1, h.up_set listing member⟩
        rw [none] at isUp
        cases isUp
    · next first others isList =>
        have joins : ∀ {p q m : BasicBlock}, (idoms p).isSome → (idoms q).isSome →
            intersect G.reversePostorder idoms fuel q p = some m →
            Joins G.reversePostorder.idxOf G.entry idoms p q m :=
          fun setP setQ => intersect_joins listing h setP setQ
        have total : (others.foldlM (fun idom pred =>
              intersect G.reversePostorder idoms fuel pred idom) first).isSome := by
          refine foldlM_total joins
            (fun setP setQ => intersect_total built listing h setP setQ enough) fun p among => ?_
          rw [← isList] at among
          exact (List.mem_filter.mp among).2
        obtain ⟨new, found⟩ := Option.isSome_iff_exists.mp total
        have meet : Meet G.reversePostorder.idxOf G.entry preds idoms v new :=
          meet_of_foldlM joins isList found
        have stepped := h.step listing member meet
        rw [found, Option.bind_some]
        split
        · next same =>
            rw [← same, Function.update_eq_self] at stepped
            exact ih isRest soon stepped
        · rw [Option.isSome_map]
          exact ih isRest soon stepped

/-- The table between two rounds. -/
structure Between (preds : BasicBlock → List BasicBlock) (G : CFG) (up : BasicBlock → BasicBlock)
    (idoms : BasicBlock → Option BasicBlock) : Prop where
  invariant : Invariant G.reversePostorder.idxOf preds G.entry G.reversePostorder.tail
    G.reversePostorder.idxOf up 0 idoms
  covers : Covers G.reversePostorder.idxOf G.entry
    (Clear (fun p v => p ∈ preds v) G.entry G.reversePostorder.idxOf) idoms

abbrev Solved (preds : BasicBlock → List BasicBlock) (G : CFG) (up : BasicBlock → BasicBlock)
    (idoms : BasicBlock → Option BasicBlock) : Prop :=
  Solution G.reversePostorder.idxOf preds G.entry G.reversePostorder.tail G.reversePostorder.idxOf
    up idoms

include listing in
theorem idomStep_between {later : BasicBlock → Option BasicBlock} (h : Between preds G up idoms)
    (stepped : idomStep preds G fuel idoms = some (.inl later)) :
    Between preds G up later ∧ weight G.reversePostorder.idxOf G.reversePostorder.tail later <
      weight G.reversePostorder.idxOf G.reversePostorder.tail idoms := by
  obtain ⟨⟨table, changed⟩, ran, same⟩ := Option.map_eq_some_iff.mp stepped
  obtain ⟨inv, covered, less, -⟩ := h.invariant.pass listing
    (fun member clear differs => clear_handed listing member clear differs)
    (List.nil_append _).symm (List.forall_mem_nil _) h.covers
    (idomPass_pass listing (List.nil_append _).symm (List.forall_mem_nil _) h.invariant ran)
  cases changed with
  | true =>
    cases same
    exact ⟨⟨inv, covered⟩, less rfl⟩
  | false => cases same

include listing in
theorem idomStep_solved {result : BasicBlock → Option BasicBlock} (h : Between preds G up idoms)
    (stepped : idomStep preds G fuel idoms = some (.inr result)) : Solved preds G up result := by
  obtain ⟨⟨table, changed⟩, ran, same⟩ := Option.map_eq_some_iff.mp stepped
  obtain ⟨inv, covered, -, equal⟩ := h.invariant.pass listing
    (fun member clear differs => clear_handed listing member clear differs)
    (List.nil_append _).symm (List.forall_mem_nil _) h.covers
    (idomPass_pass listing (List.nil_append _).symm (List.forall_mem_nil _) h.invariant ran)
  cases changed with
  | true => cases same
  | false =>
    cases same
    obtain ⟨isTable, settled⟩ := equal rfl
    exact ⟨inv, covered, isTable ▸ settled⟩

def initial (G : CFG) : BasicBlock → Option BasicBlock := fun bb =>
  if bb = G.entry then some G.entry else none

include listing in
theorem initial_between : Between preds G up (initial G) := by
  have isInitial : Initial G.entry (initial G) :=
    ⟨if_pos rfl, fun differs => if_neg differs⟩
  exact ⟨isInitial.invariant listing,
    isInitial.covers fun member clear differs => clear_handed listing member clear differs⟩

include listing in
theorem idoms_solved (ran : Lib.loop (idomStep preds G fuel) fuel (initial G) = some idoms) :
    Solved preds G up idoms := by
  obtain ⟨last, h, ended⟩ := loop_invariant (Q := Between preds G up)
    (fun holds stepped => (idomStep_between listing holds stepped).1) (initial_between listing) ran
  exact idomStep_solved listing h ended

include built listing in
theorem idoms_total (enough : 2 * G.reversePostorder.length +
      weight G.reversePostorder.idxOf G.reversePostorder.tail (initial G) < fuel) :
    (Lib.loop (idomStep preds G fuel) fuel (initial G)).isSome := by
  refine loop_total (Q := Between preds G up)
    (weight G.reversePostorder.idxOf G.reversePostorder.tail) (fun {idoms} holds => ?_)
    (initial_between listing) (by omega)
  have total : (idomPass preds G fuel G.reversePostorder.tail idoms).isSome :=
    idomPass_total built listing (List.nil_append _).symm (List.forall_mem_nil _) holds.invariant
      (by omega)
  obtain ⟨result, ran⟩ := Option.isSome_iff_exists.mp total
  have stepped : idomStep preds G fuel idoms =
      some (if result.2 then .inl result.1 else .inr result.1) := by
    rw [idomStep, ran, Option.map_some]
  exact ⟨_, stepped, fun t isLater => idomStep_between listing holds (isLater ▸ stepped)⟩

end Idoms

/-! ## The walk of the tree -/

section Numbering

open TreeIntervals

variable {children : BasicBlock → List BasicBlock} {w w' : Walk}

def Walk.clock (w : Walk) : Clock BasicBlock :=
  ⟨w.timestamp, w.dfsIn, w.dfsOut, w.stack.map CFG.toVisit⟩

variable {c : Clock BasicBlock}

theorem Walk.step_tick (stepped : w.step children = some (.inl w')) :
    Tick children w.clock w'.clock := by
  obtain ⟨time, ins, outs, stack⟩ := w
  cases stack with
  | nil => cases stepped
  | cons visit rest =>
    cases visit with
    | enter bb =>
      cases stepped
      have isClock : (Walk.clock ⟨time + 1, Function.update ins bb (some time), outs,
          (children bb).map .enter ++ .exit bb :: rest⟩) =
          ⟨time + 1, Function.update ins bb (some time), outs,
            (children bb).map .enter ++ .exit bb :: rest.map CFG.toVisit⟩ := by
        simp only [clock, List.map_append, List.map_map, List.map_cons]
        rfl
      rw [isClock]
      exact .enter
    | exit bb =>
      cases stepped
      exact .leave

theorem Walk.exists_step (tick : Tick children w.clock c) :
    ∃ w', w.step children = some (.inl w') ∧ w'.clock = c := by
  obtain ⟨time, ins, outs, stack⟩ := w
  cases stack with
  | nil => cases tick
  | cons visit rest =>
    have stepped : ∃ w', Walk.step children ⟨time, ins, outs, visit :: rest⟩ =
        some (.inl w') := by
      cases visit with
      | enter bb => exact ⟨_, rfl⟩
      | exit bb => exact ⟨_, rfl⟩
    obtain ⟨w', stepped⟩ := stepped
    exact ⟨w', stepped, tick_unique (Walk.step_tick stepped) tick⟩

theorem Walk.exists_loop (ticks : Relation.ReflTransGen (Tick children) w.clock c)
    (empty : c.stack = []) : ∃ fuel result, Lib.loop (Walk.step children) fuel w = some result := by
  generalize isClock : w.clock = start at ticks
  induction ticks using Relation.ReflTransGen.head_induction_on generalizing w with
  | refl =>
    have none : w.stack = [] := by
      rw [← isClock] at empty
      exact List.map_eq_nil_iff.mp empty
    refine ⟨1, w, ?_⟩
    rw [Lib.loop, Walk.step, none]
  | head tick _ ih =>
    obtain ⟨w', stepped, same⟩ := Walk.exists_step (isClock ▸ tick)
    obtain ⟨fuel, result, ran⟩ := ih same
    exact ⟨fuel + 1, result, (Lib.loop_inl stepped fuel).trans ran⟩

def start (entry : BasicBlock) : Walk := ⟨0, fun _ => none, fun _ => none, [.enter entry]⟩

variable {rank : BasicBlock → Nat} {bound : Nat} (tree : ChildLists children rank bound)

include tree in
theorem numberTree_total (entry : BasicBlock) :
    ∃ fuel, (Lib.loop (Walk.step children) fuel (start entry)).isSome := by
  have waits : (start entry).clock.stack = .enter entry :: [] := rfl
  obtain ⟨c, ticks, empty, -⟩ := walk_node tree entry waits
  obtain ⟨fuel, result, ran⟩ := Walk.exists_loop ticks empty
  exact ⟨fuel, by rw [ran]; rfl⟩

include tree in
theorem numberTree_spans {entry : BasicBlock} {fuel : Nat}
    (ran : Lib.loop (Walk.step children) fuel (start entry) = some w) :
    Spans children (Under children entry) (start entry).clock w.clock := by
  have waits : (start entry).clock.stack = .enter entry :: [] := rfl
  obtain ⟨c, ticks, empty, spans⟩ := walk_node tree entry waits
  obtain ⟨last, ticks', ended⟩ := loop_invariant
    (Q := fun w => Relation.ReflTransGen (Tick children) (start entry).clock w.clock)
    (fun holds stepped => holds.tail (Walk.step_tick stepped)) .refl ran
  have none : last.stack = [] ∧ last = w := by
    unfold Walk.step at ended
    split at ended
    · next none => exact ⟨none, Sum.inr.inj (Option.some.inj ended)⟩
    · cases ended
    · cases ended
  obtain ⟨none, rfl⟩ := none
  have same : last.clock = c := ticks_unique ticks' ticks (by simp [Walk.clock, none]) empty
  rw [same]
  exact spans

end Numbering

/-! ## The answers -/

section Answers

open TreeIntervals

variable {F : FunctionData} {G : CFG} {preds : BasicBlock → List BasicBlock}
  {up : BasicBlock → BasicBlock} {idoms : BasicBlock → Option BasicBlock} {d bb : BasicBlock}
  (built : G.Built F)
  (listing : Listing preds G.entry G.reversePostorder.tail G.reversePostorder.idxOf up)
  (solved : Solved preds G up idoms)

theorem mem_childrenOf {child : BasicBlock} :
    child ∈ childrenOf G idoms bb ↔ child ∈ G.reversePostorder.tail ∧ idoms child = some bb := by
  simp [childrenOf]

include built listing solved in
theorem childLists : ChildLists (childrenOf G idoms) G.reversePostorder.idxOf
    G.reversePostorder.length where
  parent := by
    intro v v' c isChild isChild'
    have same := (mem_childrenOf.mp isChild).2.symm.trans (mem_childrenOf.mp isChild').2
    exact Option.some.inj same
  lower := by
    intro v c isChild
    obtain ⟨member, parent⟩ := mem_childrenOf.mp isChild
    have notRoot : c ≠ G.entry := fun same => listing.root_notMem (same ▸ member)
    exact ⟨(solved.invariant.parent notRoot parent).1,
      (List.idxOf_lt_length_of_mem (List.mem_of_mem_tail member)).le⟩
  nodup := fun v => (built.nodup.sublist (List.tail_sublist _)).filter _

include built listing solved in
/-- Below a block in the tree are the blocks that it dominates. -/
theorem under_iff_dominates (member : bb ∈ G.reversePostorder) :
    Under (childrenOf G idoms) d bb ↔ Dominates (fun p v => p ∈ preds v) G.entry d bb := by
  have known : bb ∈ G.entry :: G.reversePostorder.tail := order_eq_cons built.isRoot ▸ member
  rw [← solved.record_iff listing known]
  constructor
  · intro under
    clear known member
    induction under with
    | refl => exact .self d
    | @tail p v before step ih =>
      obtain ⟨member, parent⟩ := mem_childrenOf.mp step
      have notRoot : v ≠ G.entry := fun same => listing.root_notMem (same ▸ member)
      refine .up notRoot parent ih ?_
      have lt := (solved.invariant.parent notRoot parent).1
      rcases ih.key_le with rfl | lt'
      · exact lt
      · exact lt'.trans lt
  · intro record
    clear known member
    induction record with
    | self v => exact .refl
    | @up v u x notRoot parent _ _ ih =>
      have inTail := mem_rest (solved.invariant.node (by rw [parent]; rfl)) notRoot
      exact ih.tail (mem_childrenOf.mpr ⟨inTail, parent⟩)

include built in
theorem mem_tail (member : bb ∈ G.reversePostorder) (notEntry : bb ≠ G.entry) :
    bb ∈ G.reversePostorder.tail := by
  rw [order_eq_cons built.isRoot] at member
  exact mem_rest member notEntry

include built listing solved in
theorem under_entry (member : bb ∈ G.reversePostorder) : Under (childrenOf G idoms) G.entry bb := by
  rw [under_iff_dominates built listing solved member]
  exact fun path => path.1 rfl

/-- The times of the walk decide what lies below a block. -/
theorem dominates_iff {children : BasicBlock → List BasicBlock} {w : Walk} {entry : BasicBlock}
    {T : DominanceTree} (times : T.dfsIn = w.dfsIn ∧ T.dfsOut = w.dfsOut)
    (spans : Spans children (Under children entry) (start entry).clock w.clock)
    (known : Under children entry d) (known' : Under children entry bb) :
    T.dominates d bb = true ↔ Under children d bb := by
  obtain ⟨i, o, timesD, -⟩ := spans.times known
  obtain ⟨i', o', timesB, -⟩ := spans.times known'
  rw [← spans.nested_iff known known' timesD timesB]
  obtain ⟨enterD, leaveD⟩ := timesD
  obtain ⟨enterB, leaveB⟩ := timesB
  have atD : w.dfsIn d = some i ∧ w.dfsOut d = some o := ⟨enterD, leaveD⟩
  have atB : w.dfsIn bb = some i' ∧ w.dfsOut bb = some o' := ⟨enterB, leaveB⟩
  simp [dominates, times.1, times.2, atD.1, atD.2, atB.1, atB.2]

include listing in
theorem ofCfgBy_spec {T : DominanceTree} {fuel : Nat} (built : G.Built F)
    (isTree : ofCfgBy preds G fuel = some T) :
    ∃ (idoms : BasicBlock → Option BasicBlock) (w : Walk), Solved preds G up idoms ∧
      Spans (childrenOf G idoms) (Under (childrenOf G idoms) G.entry)
        (start G.entry).clock w.clock ∧
      T = ⟨G.entry, fun bb => if bb = G.entry then none else idoms bb, childrenOf G idoms, w.dfsIn,
        w.dfsOut⟩ := by
  obtain ⟨idoms, ran, rest⟩ := Option.bind_eq_some_iff.mp isTree
  split at rest
  · obtain ⟨w, walked, same⟩ := Option.bind_eq_some_iff.mp rest
    have solved := idoms_solved listing ran
    exact ⟨idoms, w, solved, numberTree_spans (childLists built listing solved) walked,
      (Option.some.inj same).symm⟩
  · cases rest

include listing in
theorem ofCfgBy_total (built : G.Built F) :
    ∃ least, ∀ steps, least ≤ steps → (ofCfgBy preds G steps).isSome := by
  have found : ∀ fuel, 2 * G.reversePostorder.length +
      weight G.reversePostorder.idxOf G.reversePostorder.tail (initial G) < fuel →
      ∃ idoms, Lib.loop (idomStep preds G fuel) fuel (initial G) = some idoms ∧
        Solved preds G up idoms := by
    intro fuel enough
    obtain ⟨idoms, ran⟩ := Option.isSome_iff_exists.mp (idoms_total built listing enough)
    exact ⟨idoms, ran, idoms_solved listing ran⟩
  obtain ⟨idoms, -, solved⟩ := found _ (Nat.lt_succ_self _)
  have all : (G.reversePostorder.all fun bb => (idoms bb).isSome) = true := by
    rw [List.all_eq_true]
    intro bb member
    rw [order_eq_cons built.isRoot] at member
    exact settled_set solved.invariant solved.settled member
  obtain ⟨walking, walked⟩ := numberTree_total (childLists built listing solved) G.entry
  obtain ⟨w, walked⟩ := Option.isSome_iff_exists.mp walked
  -- fuel enough for both loops finds the same table
  refine ⟨2 * G.reversePostorder.length +
      weight G.reversePostorder.idxOf G.reversePostorder.tail (initial G) + 1 + walking,
    fun steps enough => ?_⟩
  obtain ⟨idoms', ran, solved'⟩ := found steps (by omega)
  obtain rfl : idoms = idoms' := solved.unique listing solved'
  have isTree : ofCfgBy preds G steps = some ⟨G.entry, fun bb => if bb = G.entry then none else
      idoms bb, childrenOf G idoms, w.dfsIn, w.dfsOut⟩ := by
    refine Option.bind_eq_some_iff.mpr ⟨idoms, ran, ?_⟩
    rw [if_pos all]
    exact Option.bind_eq_some_iff.mpr ⟨w, loop_mono walked (by omega), rfl⟩
  rw [isTree]
  rfl

end Answers

section Result

variable {F : FunctionData} {G : CFG} {preds : BasicBlock → List BasicBlock} (built : G.Built F)
  (order : ∀ bb, (preds bb).Perm (G.predecessorsOf bb))

include built order

theorem listing_of_order : ∃ up : BasicBlock → BasicBlock,
    Listing preds G.entry G.reversePostorder.tail G.reversePostorder.idxOf up := by
  refine exists_listing built.isRoot built.nodup ?_ ?_
  · intro v member p isPred
    exact (CFG.mem_predecessorsOf.mp ((order v).mem_iff.mp isPred)).1
  · intro v member notEntry
    obtain ⟨p, isPred, lt⟩ := built.earlier v member notEntry
    exact ⟨p, (order v).mem_iff.mpr isPred, lt⟩

theorem ofCfgBy_ends : ∃ least, ∀ steps, least ≤ steps → (ofCfgBy preds G steps).isSome := by
  obtain ⟨up, listing⟩ := listing_of_order built order
  exact ofCfgBy_total listing built

theorem ofCfgBy_answers {steps : Nat} {T : DominanceTree}
    (isTree : ofCfgBy preds G steps = some T) :
    (∀ bb ∈ G.blocks, bb ≠ G.entry → ∃ d, T.immediateDominator bb = some d ∧
      ImmediateDominator (fun p v => p ∈ G.predecessorsOf v) G.entry d bb) ∧
    ∀ d ∈ G.blocks, ∀ bb ∈ G.blocks, T.dominates d bb = true ↔
      Dominates (fun p v => p ∈ G.predecessorsOf v) G.entry d bb := by
  obtain ⟨up, listing⟩ := listing_of_order built order
  obtain ⟨idoms, w, solved, spans, rfl⟩ := ofCfgBy_spec listing built isTree
  have sameEdges : (fun p v => p ∈ preds v) = fun p v => p ∈ G.predecessorsOf v := by
    funext p v
    exact propext (order v).mem_iff
  rw [← sameEdges]
  refine ⟨fun bb member notEntry => ?_, fun d memberD bb member => ?_⟩
  · obtain ⟨d, parent, immediate⟩ := solved.exists_parent listing (mem_tail built member notEntry)
    exact ⟨d, (if_neg notEntry).trans parent, immediate⟩
  · rw [← under_iff_dominates built listing solved member]
    exact dominates_iff ⟨rfl, rfl⟩ spans (under_entry built listing solved memberD)
      (under_entry built listing solved member)

end Result

/-- `from_cfg` comes to an end, gives every block but the entry its immediate dominator, and answers
whether one block dominates another. -/
theorem ofCfgBy_correct {F : FunctionData} {G : CFG} {entry : BasicBlock} {fuel : Nat}
    (isCfg : CFG.ofEntry F fuel entry = some G) {preds : BasicBlock → List BasicBlock}
    (order : ∀ bb, (preds bb).Perm (G.predecessorsOf bb)) :
    (∃ steps, (ofCfgBy preds G steps).isSome) ∧
      ∀ steps T, ofCfgBy preds G steps = some T →
        (∀ bb ∈ G.blocks, bb ≠ G.entry → ∃ d, T.immediateDominator bb = some d ∧
          ImmediateDominator (fun p v => p ∈ G.predecessorsOf v) G.entry d bb) ∧
        ∀ d ∈ G.blocks, ∀ bb ∈ G.blocks, T.dominates d bb = true ↔
          Dominates (fun p v => p ∈ G.predecessorsOf v) G.entry d bb := by
  obtain ⟨-, built⟩ := CFG.ofEntry_built isCfg
  obtain ⟨least, ends⟩ := ofCfgBy_ends built order
  exact ⟨⟨least, ends least le_rfl⟩, fun steps T isTree => ofCfgBy_answers built order isTree⟩

/-- Two blocks that lead to each other, both entered from the first block: no loop has one entry. -/
def twoEntries : Ir.Listing where
  retTy := .unit
  name := "f"
  paramsTy := [.int32]
  layout := [(1, [2]), (2, [3]), (3, [4]), (4, [5])]
  insts :=
    [(1, ⟨.int32, .blockArgRef 0⟩), (2, ⟨.unit, .branch 1 2 [] 3 []⟩), (3, ⟨.unit, .jump 3 []⟩),
      (4, ⟨.unit, .branch 1 2 [] 4 []⟩), (5, ⟨.unit, .ret none⟩)]
  nextInst := 6
  blockParams := [(1, [1])]
  nextBlock := 5

def twoEntriesCfg : CFG := (CFG.ofEntry twoEntries.toFunctionData 20 1).get (by decide)

/-- The predecessors come in the opposite order here. -/
theorem ofCfgBy_correct_twoEntries :
    (∃ steps, (ofCfgBy (fun bb => (twoEntriesCfg.predecessorsOf bb).reverse) twoEntriesCfg
      steps).isSome) ∧
      ∀ steps T, ofCfgBy (fun bb => (twoEntriesCfg.predecessorsOf bb).reverse) twoEntriesCfg steps =
          some T →
        (∀ bb ∈ twoEntriesCfg.blocks, bb ≠ twoEntriesCfg.entry → ∃ d,
          T.immediateDominator bb = some d ∧
          ImmediateDominator (fun p v => p ∈ twoEntriesCfg.predecessorsOf v) twoEntriesCfg.entry d
            bb) ∧
        ∀ d ∈ twoEntriesCfg.blocks, ∀ bb ∈ twoEntriesCfg.blocks, T.dominates d bb = true ↔
          Dominates (fun p v => p ∈ twoEntriesCfg.predecessorsOf v) twoEntriesCfg.entry d bb :=
  ofCfgBy_correct (Option.some_get (by decide)).symm fun _ => List.reverse_perm _

end DominanceTree

end AnonCompiler.Opt
