import AnonCompiler.Lib.DepthFirstTree
import AnonCompiler.Opt.PreheaderLoops

/-!
# The flow graph, with its orders and predecessors

`CFG::new` and `is_acyclic` of `opt/utils/cfg.rs` in full: the search of `CFG.ofEntry`
also notes whether it has met a block that is still active, and the predecessors are
collected from the table of successors.  That table is a hash map; `order` is the
order in which it happens to be walked.

Debug assertions are left out.
-/

set_option autoImplicit false

namespace AnonCompiler.Opt

open Ir Lib

namespace CFG

/-- All fields of the graph; `blocks` is the reverse postorder. -/
structure Full extends CFG where
  postorder : List BasicBlock
  predecessors : BasicBlock → Option (List BasicBlock)
  acyclic : Bool

def Full.isAcyclic (G : Full) : Bool := G.acyclic

structure FullSearch extends Search where
  acyclic : Bool

/-- One turn of the search, until the stack is empty. -/
def FullSearch.step (F : FunctionData) (s : FullSearch) : Option (FullSearch ⊕ FullSearch) :=
  match s.stack with
  | [] => some (.inr s)
  | .enter bb :: rest =>
    if bb ∈ s.visited then some (.inl { s with stack := rest })
    else if bb ∈ s.active then some (.inl { s with stack := rest, acyclic := false })
    else
      (blockSuccessors F bb).map fun successors => .inl
        { s with
          active := bb :: s.active
          successors := Function.update s.successors bb successors
          stack :=
            (successors.filter fun next => next ∉ bb :: s.active && next ∉ s.visited).map .enter
              ++
              .exit bb :: rest
          acyclic := s.acyclic && successors.all (· ∉ bb :: s.active) }
  | .exit bb :: rest =>
    some (.inl
      { s with
        active := s.active.erase bb
        visited := if bb ∈ s.visited then s.visited else bb :: s.visited
        postorder := if bb ∈ s.visited then s.postorder else bb :: s.postorder
        stack := rest })

/-- The source is put into the list of each of its targets; a target without a list is a
panic. -/
def pushSource (source : BasicBlock) (predecessors : BasicBlock → Option (List BasicBlock))
    (target : BasicBlock) : Option (BasicBlock → Option (List BasicBlock)) :=
  (predecessors target).map fun sources =>
    Function.update predecessors target (some (sources ++ [source]))

def collectPredecessors (successors : BasicBlock → List BasicBlock)
    (blocks keys : List BasicBlock) : Option (BasicBlock → Option (List BasicBlock)) :=
  keys.foldlM (fun predecessors source =>
    (successors source).foldlM (pushSource source) predecessors)
    fun bb => if bb ∈ blocks then some [] else none

/-- `CFG::new`.  The inner `none` is a declaration, the outer one a panic or a search that has not
come to an end. -/
def new (F : FunctionData) (order : List BasicBlock → List BasicBlock) (fuel : Nat) :
    Option (Option Full) :=
  match F.entryBlock with
  | none => some none
  | some entry =>
    (loop (FullSearch.step F) fuel ⟨⟨[], [], fun _ => [], [], [.enter entry]⟩, true⟩).bind
      fun s =>
      if s.postorder.head? = some entry then
        (collectPredecessors s.successors s.postorder (order s.postorder)).map fun predecessors =>
          some ⟨⟨entry, s.postorder, s.successors⟩, s.postorder.reverse, predecessors, s.acyclic⟩
      else none

/-! ## The predecessors -/

section Predecessors

variable {predecessors : BasicBlock → Option (List BasicBlock)} {source : BasicBlock}

theorem foldlM_pushSource {targets : List BasicBlock} (nodup : targets.Nodup)
    (known : ∀ target ∈ targets, (predecessors target).isSome) :
    targets.foldlM (pushSource source) predecessors = some fun bb =>
      (predecessors bb).map (· ++ if bb ∈ targets then [source] else []) := by
  induction targets generalizing predecessors with
  | nil => simp
  | cons target targets ih =>
    obtain ⟨absent, nodup⟩ := List.nodup_cons.mp nodup
    obtain ⟨sources, isList⟩ := Option.isSome_iff_exists.mp (known target List.mem_cons_self)
    rw [List.foldlM_cons, pushSource, isList, Option.map_some]
    refine (ih nodup fun other member => ?_).trans (congrArg some (funext fun bb => ?_))
    · rw [Function.update_of_ne (by rintro rfl; exact absent member)]
      exact known other (List.mem_cons_of_mem _ member)
    · by_cases same : bb = target
      · subst same
        simp [isList, absent]
      · simp [same]

theorem collectPredecessors_eq {successors : BasicBlock → List BasicBlock}
    {blocks keys : List BasicBlock} (nodup : ∀ u ∈ keys, (successors u).Nodup)
    (closed : ∀ u ∈ keys, ∀ v ∈ successors u, v ∈ blocks) :
    collectPredecessors successors blocks keys = some fun bb =>
      if bb ∈ blocks then some (keys.filter fun u => bb ∈ successors u) else none := by
  have fold : ∀ (keys : List BasicBlock) (predecessors : BasicBlock → Option (List BasicBlock)),
      (∀ u ∈ keys, (successors u).Nodup) →
      (∀ u ∈ keys, ∀ v ∈ successors u, (predecessors v).isSome) →
      keys.foldlM (fun predecessors source =>
        (successors source).foldlM (pushSource source) predecessors) predecessors = some fun bb =>
          (predecessors bb).map (· ++ keys.filter fun u => bb ∈ successors u) := by
    intro keys
    induction keys with
    | nil => simp
    | cons u keys ih =>
      intro predecessors nodup known
      rw [List.foldlM_cons,
        foldlM_pushSource (nodup u List.mem_cons_self) (known u List.mem_cons_self)]
      refine (ih _ (fun v member => nodup v (List.mem_cons_of_mem _ member))
        fun v member w edge => ?_).trans (congrArg some (funext fun bb => ?_))
      · rw [Option.isSome_map]
        exact known v (List.mem_cons_of_mem _ member) w edge
      · cases predecessors bb with
        | none => rfl
        | some sources =>
          by_cases isTarget : bb ∈ successors u <;> simp [isTarget]
  refine (fold keys _ nodup fun u member v edge => ?_).trans (congrArg some (funext fun bb => ?_))
  · simp [closed u member v edge]
  · by_cases member : bb ∈ blocks <;> simp [member]

end Predecessors

/-! ## The search -/

section Search

open DepthFirst

variable {F : FunctionData} {s s' last : FullSearch} {entry bb : BasicBlock}

/-- Without the flag it is the search of `CFG.ofEntry`. -/
theorem FullSearch.toSearch_step (s : FullSearch) :
    s.toSearch.step F = (s.step F).map (Sum.map FullSearch.toSearch FullSearch.toSearch) := by
  obtain ⟨⟨active, visited, successors, postorder, stack⟩, acyclic⟩ := s
  cases stack with
  | nil => rfl
  | cons visit rest =>
    cases visit with
    | exit bb => rfl
    | enter bb =>
      simp only [FullSearch.step, Search.step]
      by_cases left : bb ∈ visited
      · rw [if_pos left, if_pos left]
        rfl
      · rw [if_neg left, if_neg left]
        by_cases again : bb ∈ active
        · rw [if_pos again, if_pos again]
          rfl
        · rw [if_neg again, if_neg again, Option.map_map]
          rfl

/-- The flag stays when no edge leads to an active block. -/
theorem FullSearch.acyclic_step (tracked : s.toSearch.Tracked F)
    (stepped : s.step F = some (.inl s'))
    (acyclic : s'.acyclic = true) : s.acyclic = true ∧ ¬ Closes (successorsOf F) s.search := by
  obtain ⟨⟨active, visited, successors, postorder, stack⟩, flag⟩ := s
  cases stack with
  | nil => cases stepped
  | cons visit rest =>
    cases visit with
    | exit bb =>
      cases stepped
      refine ⟨acyclic, ?_⟩
      rintro ⟨v, rest', isStack, -⟩
      cases isStack
    | enter bb =>
      have isVisited : visited = postorder := tracked.visited
      have inActive : ∀ {v}, v ∈ active ↔ DepthFirst.Visit.exit v ∈ rest.map toVisit := by
        intro v
        rw [show active = (rest.map toVisit).filterMap DepthFirst.Visit.exiting from
          tracked.active, mem_exiting]
      simp only [FullSearch.step] at stepped
      split at stepped
      · next left =>
          cases stepped
          refine ⟨acyclic, ?_⟩
          rintro ⟨v, rest', isStack, fresh, -⟩
          cases isStack
          exact fresh (.inl (isVisited ▸ left))
      · split at stepped
        · cases stepped
          cases acyclic
        · obtain ⟨targets, isTargets, same⟩ := Option.map_eq_some_iff.mp stepped
          cases same
          obtain ⟨isAcyclic, inactive⟩ := Bool.and_eq_true_iff.mp acyclic
          refine ⟨isAcyclic, ?_⟩
          rintro ⟨v, rest', isStack, -, w, edge, isBack⟩
          cases isStack
          rw [successorsOf, isTargets, Option.getD_some] at edge
          refine of_decide_eq_true (List.all_eq_true.mp inactive w edge) ?_
          rcases isBack with same | waits
          · exact same ▸ List.mem_cons_self
          · exact List.mem_cons_of_mem _ (inActive.mpr waits)

/-- The flag is taken back at an edge to an active block. -/
theorem FullSearch.cyclic_step (tracked : s.toSearch.Tracked F)
    (searching : Searching (successorsOf F) entry s.search)
    {parent : BasicBlock → Option BasicBlock}
    (growing : Growing (successorsOf F) entry parent s.search)
    (stepped : s.step F = some (.inl s')) (cyclic : s'.acyclic = false) :
    s.acyclic = false ∨ Cyclic (successorsOf F) entry := by
  obtain ⟨⟨active, visited, successors, postorder, stack⟩, flag⟩ := s
  cases stack with
  | nil => cases stepped
  | cons visit rest =>
    cases visit with
    | exit bb =>
      cases stepped
      exact .inl cyclic
    | enter bb =>
      have isVisited : visited = postorder := tracked.visited
      have inActive : ∀ {v}, v ∈ active ↔ DepthFirst.Visit.exit v ∈ rest.map toVisit := by
        intro v
        rw [show active = (rest.map toVisit).filterMap DepthFirst.Visit.exiting from
          tracked.active, mem_exiting]
      have isReached := searching.reached (.inr List.mem_cons_self)
      simp only [FullSearch.step] at stepped
      split at stepped
      · cases stepped
        exact .inl cyclic
      · next notLeft =>
        split at stepped
        · next again =>
            exact .inr ⟨bb, isReached, growing.path_of_marked (inActive.mp again)⟩
        · next fresh =>
            obtain ⟨targets, isTargets, same⟩ := Option.map_eq_some_iff.mp stepped
            cases same
            rcases Bool.and_eq_false_iff.mp cyclic with before | back
            · exact .inl before
            · refine .inr (Closes.cyclic ⟨bb, rest.map toVisit, rfl, ?_, ?_⟩ searching growing)
              · rintro (left | waits)
                · exact notLeft (isVisited ▸ left)
                · exact fresh (inActive.mpr waits)
              · rw [List.all_eq_false] at back
                obtain ⟨w, edge, isActive⟩ := back
                refine ⟨w, by rwa [successorsOf, isTargets, Option.getD_some], ?_⟩
                have isBack : w ∈ bb :: active := by
                  by_contra absent
                  exact isActive (decide_eq_true absent)
                exact (List.mem_cons.mp isBack).imp_right inActive.mp

/-- What every turn of the search keeps. -/
structure FullSearch.Sound (F : FunctionData) (entry : BasicBlock) (s : FullSearch) : Prop where
  searching : Searching (successorsOf F) entry s.search
  tracked : s.toSearch.Tracked F
  growing : ∃ parent, Growing (successorsOf F) entry parent s.search
  forward : s.acyclic = true → Forward (successorsOf F) s.search
  cyclic : s.acyclic = false → Cyclic (successorsOf F) entry

theorem FullSearch.Sound.step (sound : s.Sound F entry) (stepped : s.step F = some (.inl s')) :
    s'.Sound F entry := by
  obtain ⟨parent, growing⟩ := sound.growing
  have stepped' : s.toSearch.step F = some (.inl s'.toSearch) := by
    rw [toSearch_step, stepped]
    rfl
  obtain ⟨turn, tracked⟩ := Search.step_tracked sound.tracked sound.searching.nodup stepped'
  refine ⟨sound.searching.step turn, tracked, growing.step sound.searching turn, ?_, ?_⟩
  · intro acyclic
    obtain ⟨before, notClosed⟩ := acyclic_step sound.tracked stepped acyclic
    exact (sound.forward before).step growing turn notClosed
  · intro cyclic
    rcases cyclic_step sound.tracked sound.searching growing stepped cyclic with before | found
    · exact sound.cyclic before
    · exact found

theorem FullSearch.sound_init (entry : BasicBlock) :
    FullSearch.Sound F entry ⟨⟨[], [], fun _ => [], [], [.enter entry]⟩, true⟩ where
  searching := .init _ _
  tracked := Search.init_tracked entry
  growing := ⟨_, .init _ _⟩
  forward := fun _ => .init _ _
  cyclic := fun absurd => by cases absurd

theorem FullSearch.empty_of_ended (ended : s.step F = some (.inr last)) :
    s.stack = [] ∧ s = last := by
  unfold FullSearch.step at ended
  split at ended
  · next none => exact ⟨none, Sum.inr.inj (Option.some.inj ended)⟩
  · split at ended
    · cases ended
    · split at ended
      · cases ended
      · obtain ⟨targets, -, same⟩ := Option.map_eq_some_iff.mp ended
        cases same
  · cases ended

end Search

/-! ## What the graph is -/

/-- An arm of the terminator of one block names the other. -/
def Leads (F : FunctionData) (u v : BasicBlock) : Prop := ∃ e ∈ F.outgoingEdges u, e.target = v

/-- The graph is that of the blocks reachable from the entry. -/
structure Full.Faithful (F : FunctionData) (entry : BasicBlock) (G : Full) : Prop where
  isEntry : G.entry = entry
  nodup : G.blocks.Nodup
  mem_blocks : ∀ bb, bb ∈ G.blocks ↔ Relation.ReflTransGen (Leads F) entry bb
  postorder : G.postorder = G.blocks.reverse
  successors : ∀ u ∈ G.blocks, (G.successors u).Nodup ∧ ∀ v, v ∈ G.successors u ↔ Leads F u v
  predecessors : ∀ v ∈ G.blocks, ∃ sources, G.predecessors v = some sources ∧ sources.Nodup ∧
    ∀ u, u ∈ sources ↔ u ∈ G.blocks ∧ v ∈ G.successors u
  unreachable : ∀ v, v ∉ G.blocks → G.predecessors v = none
  searchTree : ∃ parent, DepthFirst.IsSearchTree G.successors entry G.blocks parent
  isAcyclic : G.isAcyclic = true ↔
    ∀ bb ∈ G.blocks, ¬ Relation.TransGen (Leads F) bb bb

section Faithful

variable {F : FunctionData} {entry bb : BasicBlock} {targets : List BasicBlock}

variable {r r' : BasicBlock → BasicBlock → Prop} {P : BasicBlock → Prop} {u : BasicBlock}
  {s : FullSearch}

theorem nodup_blockSuccessors (isTargets : blockSuccessors F bb = some targets) :
    targets.Nodup := by
  unfold blockSuccessors at isTargets
  split at isTargets
  · obtain rfl := eq_of_checkTargets isTargets
    exact List.nodup_singleton _
  · obtain rfl := eq_of_checkTargets isTargets
    split
    · exact List.nodup_singleton _
    · next other => simpa using fun same => other same.symm
  · cases isTargets
    exact List.nodup_nil
  · cases isTargets
    exact List.nodup_nil
  · cases isTargets

/-- Along steps that keep inside a set, two relations that agree there have the same paths. -/
theorem path_of_closed (step : ∀ u v, P u → r u v → r' u v ∧ P v) {v : BasicBlock} (start : P u)
    (path : Relation.ReflTransGen r u v) : Relation.ReflTransGen r' u v ∧ P v := by
  induction path with
  | refl => exact ⟨.refl, start⟩
  | tail _ edge ih =>
    obtain ⟨before, inside⟩ := ih
    obtain ⟨edge', inside'⟩ := step _ _ inside edge
    exact ⟨before.tail edge', inside'⟩

theorem cycle_of_closed (step : ∀ u v, P u → r u v → r' u v ∧ P v) (start : P u)
    (cycle : Relation.TransGen r u u) : Relation.TransGen r' u u := by
  obtain ⟨last, path, edge⟩ := Relation.TransGen.tail'_iff.mp cycle
  obtain ⟨path', inside⟩ := path_of_closed step start path
  exact .tail' path' (step _ _ inside edge).1

/-- The graph of a search that has come to an end. -/
theorem FullSearch.Sound.faithful (sound : s.Sound F entry) (empty : s.stack = [])
    {keys : List BasicBlock} (order : keys.Perm s.postorder) :
    s.postorder.head? = some entry ∧ ∃ predecessors,
      collectPredecessors s.successors s.postorder keys = some predecessors ∧
      Full.Faithful F entry
        ⟨⟨entry, s.postorder, s.successors⟩, s.postorder.reverse, predecessors, s.acyclic⟩ := by
  obtain ⟨searching, tracked, ⟨parent, growing⟩, forward, cyclic⟩ := sound
  have empty' : s.search.stack = [] := by simp [Search.search, empty]
  obtain ⟨members, nodup, isRoot, -⟩ := searching.finished empty'
  have isTargets : ∀ u ∈ s.postorder, blockSuccessors F u = some (s.successors u) :=
    fun u member => tracked.successors u (.inl member)
  have same : ∀ u ∈ s.postorder, successorsOf F u = s.successors u := fun u member => by
    rw [successorsOf, isTargets u member, Option.getD_some]
  have leads_iff : ∀ {u v}, u ∈ s.postorder → (v ∈ s.successors u ↔ Leads F u v) :=
    fun member => mem_blockSuccessors (isTargets _ member)
  have closed : ∀ {u v}, u ∈ s.postorder → v ∈ s.successors u → v ∈ s.postorder := by
    intro u v member edge
    exact (members v).mp (((members u).mpr member).tail (by rwa [same u member]))
  -- the two relations agree on the blocks found
  have toLeads : ∀ u v, u ∈ s.postorder → v ∈ successorsOf F u → Leads F u v ∧ v ∈ s.postorder := by
    intro u v member edge
    rw [same u member] at edge
    exact ⟨(leads_iff member).mp edge, closed member edge⟩
  have ofLeads : ∀ u v, u ∈ s.postorder → Leads F u v → v ∈ successorsOf F u ∧ v ∈ s.postorder := by
    intro u v member leads
    have edge := (leads_iff member).mpr leads
    exact ⟨by rwa [same u member], closed member edge⟩
  have entryMem : entry ∈ s.postorder := (members entry).mp .refl
  have isNodup : ∀ u ∈ s.postorder, (s.successors u).Nodup := fun u member =>
    nodup_blockSuccessors (isTargets u member)
  refine ⟨isRoot, _, collectPredecessors_eq (fun u member => isNodup u (order.subset member))
    (fun u member v => closed (order.subset member)), ?_⟩
  refine ⟨rfl, nodup, fun bb => ⟨fun member => ?_, fun path => ?_⟩, rfl,
    fun u member => ⟨isNodup u member, fun v => leads_iff member⟩, fun v member => ?_,
    fun v absent => if_neg absent, ⟨parent, (growing.finished searching empty').congr same⟩, ?_⟩
  · exact (path_of_closed toLeads entryMem ((members bb).mpr member)).1
  · exact (path_of_closed ofLeads entryMem path).2
  · refine ⟨_, if_pos member, (order.nodup_iff.mpr nodup).filter _, fun u => ?_⟩
    rw [List.mem_filter, decide_eq_true_eq, order.mem_iff]
    rfl
  · change s.acyclic = true ↔ _
    constructor
    · intro acyclic bb member cycle
      exact (forward acyclic).acyclic searching empty'
        ⟨bb, (members bb).mpr member, cycle_of_closed ofLeads member cycle⟩
    · intro none
      by_contra notAcyclic
      obtain ⟨bb, reached, cycle⟩ := cyclic (Bool.not_eq_true _ ▸ notAcyclic)
      have member := (members bb).mp reached
      exact none bb member (cycle_of_closed toLeads member cycle)

/-- The search with the flag comes to an end when the search does. -/
theorem fullSearch_total {fuel : Nat} (total : (loop (Search.step F) fuel s.toSearch).isSome) :
    (loop (FullSearch.step F) fuel s).isSome := by
  induction fuel generalizing s with
  | zero => cases total
  | succ fuel ih =>
    rw [loop] at total ⊢
    rw [FullSearch.toSearch_step] at total
    cases stepped : s.step F with
    | none => simp [stepped] at total
    | some next =>
      cases next with
      | inl t =>
        rw [stepped] at total
        exact ih total
      | inr last => rfl

/-- `CFG::new` has nothing to say of a declaration.  What it delivers for a function with a body
is the graph of the blocks reachable from the entry, with a reverse postorder of a depth-first
search, and it delivers it for every function whose blocks end as they should. -/
theorem new_faithful (F : FunctionData) (order : List BasicBlock → List BasicBlock)
    (isOrder : ∀ blocks, (order blocks).Perm blocks) :
    (∀ fuel, F.entryBlock = none → new F order fuel = some none) ∧
    (∀ fuel G, new F order fuel = some (some G) →
      ∃ entry, F.entryBlock = some entry ∧ G.Faithful F entry) ∧
    (∀ entry, F.entryBlock = some entry → F.Terminated →
      ∃ fuel G, new F order fuel = some (some G)) := by
  have ended : ∀ {fuel entry last}, loop (FullSearch.step F) fuel
      ⟨⟨[], [], fun _ => [], [], [.enter entry]⟩, true⟩ = some last →
      last.Sound F entry ∧ last.stack = [] := by
    intro fuel entry last ran
    obtain ⟨s, sound, isEnd⟩ :=
      loop_invariant FullSearch.Sound.step (FullSearch.sound_init entry) ran
    obtain ⟨empty, rfl⟩ := FullSearch.empty_of_ended isEnd
    exact ⟨sound, empty⟩
  refine ⟨fun fuel isDecl => by rw [new, isDecl], fun fuel G isNew => ?_,
    fun entry isEntry terminated => ?_⟩
  · cases isEntry : F.entryBlock with
    | none => simp [new, isEntry] at isNew
    | some entry =>
      rw [new, isEntry] at isNew
      obtain ⟨last, ran, built⟩ := Option.bind_eq_some_iff.mp isNew
      obtain ⟨sound, empty⟩ := ended ran
      obtain ⟨isRoot, predecessors, collected, faithful⟩ :=
        sound.faithful empty (isOrder last.postorder)
      rw [if_pos isRoot, collected] at built
      cases built
      exact ⟨entry, rfl, faithful⟩
  · obtain ⟨fuel, total⟩ := ofEntry_total terminated (FunctionData.entry_mem_blocks isEntry)
    rw [ofEntry, Option.isSome_map] at total
    obtain ⟨last, ran⟩ := Option.isSome_iff_exists.mp
      (fullSearch_total (s := ⟨⟨[], [], fun _ => [], [], [.enter entry]⟩, true⟩) total)
    obtain ⟨sound, empty⟩ := ended ran
    obtain ⟨isRoot, predecessors, collected, -⟩ := sound.faithful empty (isOrder last.postorder)
    refine ⟨fuel, ⟨⟨entry, last.postorder, last.successors⟩, last.postorder.reverse, predecessors,
      last.acyclic⟩, ?_⟩
    rw [new, isEntry]
    dsimp only
    rw [ran, Option.bind_some, if_pos isRoot, collected, Option.map_some]

/-- A loop at block 2, with the table of successors walked backwards. -/
theorem new_faithful_enteredTwice : ∃ fuel G,
    new enteredTwice.toFunctionData List.reverse fuel = some (some G) ∧
      G.Faithful enteredTwice.toFunctionData 1 := by
  obtain ⟨-, delivers, ends⟩ :=
    new_faithful enteredTwice.toFunctionData List.reverse fun blocks => List.reverse_perm blocks
  obtain ⟨fuel, G, isNew⟩ := ends 1 rfl enteredTwice_terminated
  obtain ⟨entry, isEntry, faithful⟩ := delivers fuel G isNew
  cases isEntry
  exact ⟨fuel, G, isNew, faithful⟩

end Faithful

end CFG

end AnonCompiler.Opt
