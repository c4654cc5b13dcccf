import AnonCompiler.Lib.IterativeDominators
import AnonCompiler.Opt.DomTree

/-!
# What `idom` computes

`idom` numbers the nodes by their position in reverse postorder and then climbs by
the entries of `rpo` itself.  As an iteration this is sound with any keys: it comes
to an end, and what it leaves is the immediate dominator of a node exactly when
that one has a smaller entry than all nodes between it and the node
(`idom_immediate_iff`).
-/

set_option autoImplicit false

namespace AnonCompiler.Opt.DomTree

open Ir Lib Lib.IterativeDominators

/-- The graph and its reverse postorder, as the search has numbered them. -/
structure Ordered (prece : Nat → List Nat) (rpo : List Nat) : Prop where
  isRoot : rpo.head? = some 0
  nodup : rpo.Nodup
  mem_iff : ∀ {v}, v ∈ rpo ↔ v < rpo.length
  closed : ∀ {v p}, v ∈ rpo → p ∈ prece v → p ∈ rpo
  earlier : ∀ v ∈ rpo, v ≠ 0 → ∃ p, p ∈ prece v ∧ rpo.idxOf p < rpo.idxOf v
  reached : ∀ v, Reachable (fun p v => p ∈ prece v) 0 v ↔ v ∈ rpo

/-- The entry of `rpo` that stands for a node where its position is meant. -/
def entryOf (rpo : List Nat) (p : Nat) : Nat := (rpo[p]?).getD 0

namespace Ordered

variable {prece : Nat → List Nat} {rpo : List Nat} (ordered : Ordered prece rpo)

include ordered

theorem cons_tail : rpo = 0 :: rpo.tail := order_eq_cons ordered.isRoot

theorem listing : ∃ up, Listing prece 0 rpo.tail rpo.idxOf up :=
  exists_listing ordered.isRoot ordered.nodup (fun _ member _ isPred =>
    ordered.closed member isPred)
    ordered.earlier

theorem getElem?_entryOf {p : Nat} (member : p ∈ rpo) : rpo[p]? = some (entryOf rpo p) := by
  have inside := ordered.mem_iff.mp member
  rw [entryOf, List.getElem?_eq_getElem inside, Option.getD_some]

theorem keyed : Keyed (entryOf rpo) 0 rpo.tail := by
  have same : ∀ {u v}, u ∈ rpo → v ∈ rpo → entryOf rpo u = entryOf rpo v → u = v := by
    intro u v memberU memberV equal
    have insideU := ordered.mem_iff.mp memberU
    have insideV := ordered.mem_iff.mp memberV
    rw [entryOf, entryOf, List.getElem?_eq_getElem insideU,
      List.getElem?_eq_getElem insideV] at equal
    exact (ordered.nodup.getElem_inj_iff).mp equal
  have zero : entryOf rpo 0 = 0 := by
    rw [entryOf, ← List.head?_eq_getElem?, ordered.isRoot, Option.getD_some]
  refine ⟨?_, ?_⟩
  · rw [← ordered.cons_tail]
    exact same
  · intro v member
    rw [zero]
    refine Nat.pos_of_ne_zero fun isZero => ?_
    have first : (0 : Nat) ∈ rpo := List.mem_of_mem_head? ordered.isRoot
    have : v = 0 := same (List.mem_of_mem_tail member) first (isZero.trans zero.symm)
    exact root_notMem_tail ordered.isRoot ordered.nodup (this ▸ member)

end Ordered

/-! ## The loops of `idom` as climbing and rounds -/

section Loops

variable {prece : Nat → List Nat} {rpo : List Nat} {map map' : IDomMap} {up : Nat → Nat} {pos : Nat}
  {fuel : Nat} (ordered : Ordered prece rpo) (listing : Listing prece 0 rpo.tail rpo.idxOf up)

variable {p q m v rounds : Nat} {nodes before : List Nat} {changed : Bool}

include ordered in
theorem lca_eq_climb (h : Invariant (entryOf rpo) prece 0 rpo.tail rpo.idxOf up pos map.get)
    (setP : (map.get p).isSome) (setQ : (map.get q).isSome) :
    lca rpo map fuel p q = climb (entryOf rpo) map.get fuel p q := by
  have known : ∀ {v}, (map.get v).isSome → rpo[v]? = some (entryOf rpo v) := by
    intro v set
    apply ordered.getElem?_entryOf
    rw [ordered.cons_tail]
    exact h.node set
  induction fuel generalizing p q with
  | zero => rfl
  | succ fuel ih =>
    unfold lca climb
    split
    · rfl
    · rw [known setP, known setQ]
      dsimp only
      split
      · next lt =>
          obtain ⟨u, parent, setU, -⟩ := ordered.keyed.parent h setP setQ lt
          rw [parent]
          exact ih setU setQ
      · split
        · next lt =>
            obtain ⟨u, parent, setU, -⟩ := ordered.keyed.parent h setQ setP lt
            rw [parent]
            exact ih setP setU
        · rfl

include ordered in
theorem lca_joins (h : Invariant (entryOf rpo) prece 0 rpo.tail rpo.idxOf up pos map.get)
    (setP : (map.get p).isSome) (setQ : (map.get q).isSome)
    (climbed : lca rpo map fuel p q = some m) : Joins (entryOf rpo) 0 map.get p q m := by
  rw [lca_eq_climb ordered h setP setQ] at climbed
  exact climb_joins ordered.keyed h setP setQ climbed

include ordered in
theorem newIdom_meet (h : Invariant (entryOf rpo) prece 0 rpo.tail rpo.idxOf up pos map.get)
    (found : newIdom rpo map fuel (prece v) = some m) : Meet (entryOf rpo) 0 prece map.get v m := by
  unfold newIdom at found
  split at found
  · split at found
    · cases found
    · next first others isList =>
        exact meet_of_foldlM (lca_joins ordered h) isList found
  · cases found

include ordered listing in
theorem newIdom_total (member : v ∈ rpo.tail)
    (h : Invariant (entryOf rpo) prece 0 rpo.tail rpo.idxOf up (rpo.idxOf v) map.get)
    (length : map.length = rpo.length) (enough : 2 * rpo.length < fuel) :
    (newIdom rpo map fuel (prece v)).isSome := by
  have inside : (prece v).all (· < map.length) := by
    rw [List.all_eq_true, length]
    intro p isPred
    exact decide_eq_true (ordered.mem_iff.mp (ordered.closed (List.mem_of_mem_tail member) isPred))
  unfold newIdom
  rw [if_pos inside]
  split
  · next none =>
      have isUp : up v ∈ (prece v).filter fun x => (map.get x).isSome :=
        List.mem_filter.mpr ⟨(listing.up_mem member).1, h.up_set listing member⟩
      rw [none] at isUp
      cases isUp
  · next first others isList =>
      refine foldlM_total (lca_joins ordered h) (fun {p q} setP setQ => ?_) (fun p among => ?_)
      · rw [lca_eq_climb ordered h setP setQ]
        refine climb_total ordered.keyed h setP setQ ?_
        have short : ∀ {x}, (map.get x).isSome → rpo.idxOf x < rpo.length := by
          intro x set
          apply List.idxOf_lt_length_of_mem
          rw [ordered.cons_tail]
          exact h.node set
        have := short setP
        have := short setQ
        omega
      · rw [← isList] at among
        exact (List.mem_filter.mp among).2

theorem get_set_eq (inside : v < map.length) :
    IDomMap.get (map.set v (some m)) = Function.update map.get v (some m) := by
  funext x
  rw [get_set]
  by_cases same : v = x
  · subst same
    rw [if_pos ⟨rfl, inside⟩, Function.update_self]
  · rw [if_neg fun found => same found.1, Function.update_of_ne (Ne.symm same)]

include ordered listing in
theorem idomPass_pass (isRest : rpo.tail = before ++ nodes)
    (early : ∀ w ∈ before, rpo.idxOf w < pos)
    (h : Invariant (entryOf rpo) prece 0 rpo.tail rpo.idxOf up pos map.get)
    (length : map.length = rpo.length)
    (ran : idomPass rpo prece fuel nodes map = some (map', changed)) :
    Pass (entryOf rpo) 0 prece nodes map.get map'.get changed ∧ map'.length = rpo.length := by
  induction nodes generalizing map before pos changed with
  | nil =>
    cases ran
    exact ⟨.nil _, length⟩
  | cons v nodes ih =>
    obtain ⟨new, found, ran⟩ := Option.bind_eq_some_iff.mp ran
    obtain ⟨member, h, soon⟩ := h.next listing isRest early
    have meet := newIdom_meet ordered h found
    have stepped := h.step listing member meet
    have inside : v < map.length := length ▸ ordered.mem_iff.mp (List.mem_of_mem_tail member)
    rw [List.append_cons] at isRest
    split at ran
    · next same =>
        rw [← same, Function.update_eq_self] at stepped
        obtain ⟨pass, length'⟩ := ih isRest soon stepped length ran
        exact ⟨.keep meet same pass, length'⟩
    · next differs =>
        obtain ⟨⟨last, flag⟩, later, same⟩ := Option.map_eq_some_iff.mp ran
        cases same
        rw [← get_set_eq inside] at stepped
        obtain ⟨pass, length'⟩ := ih isRest soon stepped ((List.length_set ..).trans length) later
        rw [get_set_eq inside] at pass
        exact ⟨.change meet differs pass, length'⟩

include ordered listing in
theorem idomPass_total (isRest : rpo.tail = before ++ nodes)
    (early : ∀ w ∈ before, rpo.idxOf w < pos)
    (h : Invariant (entryOf rpo) prece 0 rpo.tail rpo.idxOf up pos map.get)
    (length : map.length = rpo.length) (enough : 2 * rpo.length < fuel) :
    (idomPass rpo prece fuel nodes map).isSome := by
  induction nodes generalizing map before pos with
  | nil => rfl
  | cons v nodes ih =>
    obtain ⟨member, h, soon⟩ := h.next listing isRest early
    obtain ⟨new, found⟩ := Option.isSome_iff_exists.mp
      (newIdom_total ordered listing member h length enough)
    have stepped := h.step listing member (newIdom_meet ordered h found)
    have inside : v < map.length := length ▸ ordered.mem_iff.mp (List.mem_of_mem_tail member)
    rw [List.append_cons] at isRest
    rw [idomPass, found, Option.bind_some]
    split
    · next same =>
        rw [← same, Function.update_eq_self] at stepped
        exact ih isRest soon stepped length
    · rw [← get_set_eq inside] at stepped
      rw [Option.isSome_map]
      exact ih isRest soon stepped ((List.length_set ..).trans length)

/-- What `idom` leaves. -/
abbrev Solved (prece : Nat → List Nat) (rpo : List Nat) (up : Nat → Nat) (map : IDomMap) : Prop :=
  Solution (entryOf rpo) prece 0 rpo.tail rpo.idxOf up map.get

include ordered listing in
/-- A round keeps what is known of the table, and moves entries if it changes any. -/
theorem idomPass_round (h : Invariant (entryOf rpo) prece 0 rpo.tail rpo.idxOf up 0 map.get)
    (covers : Covers (entryOf rpo) 0 (Clear (fun p v => p ∈ prece v) 0 (entryOf rpo)) map.get)
    (length : map.length = rpo.length)
    (ran : idomPass rpo prece fuel rpo.tail map = some (map', changed)) :
    Invariant (entryOf rpo) prece 0 rpo.tail rpo.idxOf up 0 map'.get ∧
      Covers (entryOf rpo) 0 (Clear (fun p v => p ∈ prece v) 0 (entryOf rpo)) map'.get ∧
      map'.length = rpo.length ∧
      (changed = true → weight rpo.idxOf rpo.tail map'.get < weight rpo.idxOf rpo.tail map.get) ∧
      (changed = false → map'.get = map.get ∧ Settled (entryOf rpo) 0 prece rpo.tail map.get) := by
  obtain ⟨pass, length'⟩ :=
    idomPass_pass ordered listing (List.nil_append _).symm (List.forall_mem_nil _) h length ran
  obtain ⟨inv, covered, less, equal⟩ := h.pass listing
    (fun member clear differs => clear_handed listing member clear differs) (List.nil_append _).symm
    (List.forall_mem_nil _) covers pass
  exact ⟨inv, covered, length', less, equal⟩

include ordered listing in
theorem idomLoop_solved (h : Invariant (entryOf rpo) prece 0 rpo.tail rpo.idxOf up 0 map.get)
    (covers : Covers (entryOf rpo) 0 (Clear (fun p v => p ∈ prece v) 0 (entryOf rpo)) map.get)
    (length : map.length = rpo.length) (ran : idomLoop rpo prece fuel rounds map = some map') :
    Solved prece rpo up map' := by
  induction rounds generalizing map with
  | zero => cases ran
  | succ rounds ih =>
    obtain ⟨⟨next, changed⟩, passed, ran⟩ := Option.bind_eq_some_iff.mp ran
    obtain ⟨inv, covered, length', -, equal⟩ :=
      idomPass_round ordered listing h covers length passed
    cases changed with
    | true => exact ih inv covered length' ran
    | false =>
      cases ran
      obtain ⟨same, settled⟩ := equal rfl
      exact ⟨inv, covered, same ▸ settled⟩

include ordered listing in
theorem idomLoop_total (h : Invariant (entryOf rpo) prece 0 rpo.tail rpo.idxOf up 0 map.get)
    (covers : Covers (entryOf rpo) 0 (Clear (fun p v => p ∈ prece v) 0 (entryOf rpo)) map.get)
    (length : map.length = rpo.length) (enough : 2 * rpo.length < fuel)
    (enoughRounds : weight rpo.idxOf rpo.tail map.get < rounds) :
    (idomLoop rpo prece fuel rounds map).isSome := by
  induction rounds generalizing map with
  | zero => exact absurd enoughRounds (Nat.not_lt_zero _)
  | succ rounds ih =>
    obtain ⟨⟨next, changed⟩, passed⟩ := Option.isSome_iff_exists.mp
      (idomPass_total ordered listing (List.nil_append _).symm
        (List.forall_mem_nil _) h length enough)
    obtain ⟨inv, covered, length', less, -⟩ :=
      idomPass_round ordered listing h covers length passed
    rw [idomLoop, passed, Option.bind_some]
    cases changed with
    | true =>
      exact ih inv covered length' ((less rfl).trans_le (Nat.lt_succ_iff.mp enoughRounds))
    | false => rfl

def initial (rpo : List Nat) : IDomMap := (List.replicate rpo.length none).set 0 (some 0)

include ordered in
theorem initial_get : Initial 0 (initial rpo).get := by
  have inside : 0 < (List.replicate rpo.length (none : Option Nat)).length := by
    rw [List.length_replicate, List.length_pos_iff]
    rintro none
    have isRoot := ordered.isRoot
    rw [none] at isRoot
    cases isRoot
  refine ⟨?_, fun {v} differs => ?_⟩
  · rw [initial, get_set, if_pos ⟨rfl, inside⟩]
  · rw [initial, get_set, if_neg fun found => differs found.1.symm, IDomMap.get]
    by_cases small : v < rpo.length
    · rw [List.getElem?_replicate, if_pos small, Option.join_some]
    · rw [List.getElem?_replicate, if_neg small, Option.join_none]

include ordered in
theorem idom_eq_loop : idom prece rpo fuel = idomLoop rpo prece fuel fuel (initial rpo) := by
  have inside : rpo.all (· < rpo.length) := by
    rw [List.all_eq_true]
    intro v member
    exact decide_eq_true (ordered.mem_iff.mp member)
  exact if_pos inside

include ordered listing in
theorem idom_solved (ran : idom prece rpo fuel = some map) : Solved prece rpo up map := by
  rw [idom_eq_loop ordered] at ran
  have isInitial := initial_get ordered
  refine idomLoop_solved ordered listing (isInitial.invariant listing)
    (isInitial.covers fun member clear differs => clear_handed listing member clear differs) ?_ ran
  rw [initial, List.length_set, List.length_replicate]

include ordered in
/-- `idom` comes to an end. -/
theorem idom_total : ∃ least, ∀ fuel, least ≤ fuel → (idom prece rpo fuel).isSome := by
  obtain ⟨up, listing⟩ := ordered.listing
  have isInitial := initial_get ordered
  refine ⟨2 * rpo.length + weight rpo.idxOf rpo.tail (initial rpo).get + 1, fun fuel enough => ?_⟩
  rw [idom_eq_loop ordered]
  refine idomLoop_total ordered listing (isInitial.invariant listing)
    (isInitial.covers fun member clear differs => clear_handed listing member clear differs) ?_
    (by omega) (by omega)
  rw [initial, List.length_set, List.length_replicate]

end Loops

/-! ## Which immediate dominators are found -/

/-- Every node but 0 is mapped to its immediate dominator. -/
def MapsToImmediate (prece : Nat → List Nat) (rpo : List Nat) (map : IDomMap) : Prop :=
  ∀ v ∈ rpo, v ≠ 0 → ∃ d, map.get v = some d ∧ ImmediateDominator (fun p v => p ∈ prece v) 0 d v

/-- The immediate dominator of a node has a smaller entry in `rpo` than every node from which a
predecessor of the node is reached past the dominator. -/
def EntriesAscend (prece : Nat → List Nat) (rpo : List Nat) : Prop :=
  ∀ v ∈ rpo, ∀ d, ImmediateDominator (fun p v => p ∈ prece v) 0 d v →
    ∀ p ∈ prece v, ∀ y, ReachAvoiding (fun p v => p ∈ prece v) d y p →
      entryOf rpo d < entryOf rpo y

section Immediate

variable {prece : Nat → List Nat} {rpo : List Nat} {map : IDomMap} {up : Nat → Nat}

/-- The entries ascend where the immediate dominators are clear of the predecessors. -/
theorem entriesAscend_iff (ordered : Ordered prece rpo)
    (listing : Listing prece 0 rpo.tail rpo.idxOf up) :
    EntriesAscend prece rpo ↔ ∀ v ∈ rpo, ∀ d, ImmediateDominator (fun p v => p ∈ prece v) 0 d v →
      ∀ p ∈ prece v, Clear (fun p v => p ∈ prece v) 0 (entryOf rpo) d p := by
  constructor
  · intro ascend v member d immediate p isPred
    exact ⟨immediate.dominates.pred immediate.strict.symm isPred,
      fun y _ path => ascend v member d immediate p isPred y path⟩
  · intro clear v member d immediate p isPred y path
    refine (clear v member d immediate p isPred).2 y ?_ path
    apply listing.reachable
    refine listing.node_of_path ?_ path.2
    rw [← ordered.cons_tail]
    exact ordered.closed member isPred

theorem Solved.mapsToImmediate_iff (solved : Solved prece rpo up map) (ordered : Ordered prece rpo)
    (listing : Listing prece 0 rpo.tail rpo.idxOf up) :
    MapsToImmediate prece rpo map ↔ EntriesAscend prece rpo := by
  rw [entriesAscend_iff ordered listing]
  have inTail : ∀ {v}, v ∈ rpo → v ≠ 0 → v ∈ rpo.tail := by
    intro v member notRoot
    rw [ordered.cons_tail] at member
    exact mem_rest member notRoot
  constructor
  · intro maps v member d immediate
    have notRoot : v ≠ 0 := by
      rintro rfl
      exact immediate.strict immediate.dominates.eq_root
    obtain ⟨u, parent, isImmediate⟩ := maps v member notRoot
    exact (immediate_iff listing solved.invariant solved.settled solved.covers ⟨d, immediate⟩
      (inTail member notRoot) parent).mp isImmediate d immediate
  · intro clear v member notRoot
    obtain ⟨u, parent, -⟩ := solved.settled v (inTail member notRoot)
    refine ⟨u, parent, ?_⟩
    exact (immediate_iff listing solved.invariant solved.settled solved.covers
      (exists_immediate listing (inTail member notRoot)) (inTail member notRoot) parent).mpr
      (clear v member)

end Immediate

theorem ordered_of_search {F : FunctionData} {fuel fuel' : Nat} {s : CfgState} {rpo : List Nat}
    (numbered : buildCfgBoth F fuel = some s) (isRpo : rpoPath s.graph fuel' = some rpo) :
    Ordered s.prece rpo := by
  obtain ⟨entry, -, searched⟩ := Option.bind_eq_some_iff.mp numbered
  obtain ⟨h, empty⟩ := (Searched.init F entry).loop searched
  obtain ⟨reached, nodup, isRoot, earlier⟩ := rpoPath_earlier isRpo
  rw [h.sameGraph] at reached
  have mem_iff : ∀ {v}, v ∈ rpo ↔ v < s.alloc.length :=
    fun {v} => (reached v).symm.trans (h.reachable_iff empty)
  have length : rpo.length = s.alloc.length := by
    have perm : rpo.Perm (List.range s.alloc.length) :=
      (List.perm_ext_iff_of_nodup nodup List.nodup_range).mpr fun v => by
        rw [mem_iff, List.mem_range]
    rw [perm.length_eq, List.length_range]
  refine ⟨isRoot, nodup, length ▸ mem_iff, fun _ isPred => mem_iff.mpr (h.ids isPred).1,
    ?_, reached⟩
  intro v member notRoot
  obtain ⟨p, isEdge, lt⟩ := earlier v member notRoot
  exact ⟨p, h.both.mpr isEdge, lt⟩

/-- `idom` always ends, and it maps every node to its immediate dominator exactly when the entries
of `rpo` ascend from the immediate dominators. -/
theorem idom_immediate_iff {F : FunctionData} {fuel fuel' : Nat} {s : CfgState} {rpo : List Nat}
    (numbered : buildCfgBoth F fuel = some s) (isRpo : rpoPath s.graph fuel' = some rpo) :
    (∃ steps map, idom s.prece rpo steps = some map ∧ MapsToImmediate s.prece rpo map) ↔
      EntriesAscend s.prece rpo := by
  have ordered := ordered_of_search numbered isRpo
  obtain ⟨up, listing⟩ := ordered.listing
  constructor
  · rintro ⟨steps, map, ran, maps⟩
    exact ((idom_solved ordered listing ran).mapsToImmediate_iff ordered listing).mp maps
  · intro ascend
    obtain ⟨steps, ended⟩ := idom_total ordered
    obtain ⟨map, ran⟩ := Option.isSome_iff_exists.mp (ended steps le_rfl)
    exact ⟨steps, map, ran,
      ((idom_solved ordered listing ran).mapsToImmediate_iff ordered listing).mpr ascend⟩

/-- A function that returns at once or enters a loop: block 2 returns, block 3 leads to the loop of
block 4.  The blocks get the ids 0, 1, 2 and 3, and reverse postorder is 0, 2, 3, 1. -/
def returnOrLoop : Ir.Listing where
  retTy := .unit
  name := "f"
  paramsTy := [.int32]
  layout := [(1, [2]), (2, [3]), (3, [4]), (4, [5])]
  insts :=
    [(1, ⟨.int32, .blockArgRef 0⟩), (2, ⟨.unit, .branch 1 2 [] 3 []⟩), (3, ⟨.unit, .ret none⟩),
      (4, ⟨.unit, .jump 4 []⟩), (5, ⟨.unit, .branch 1 4 [] 2 []⟩)]
  nextInst := 6
  blockParams := [(1, [1])]
  nextBlock := 5

def returnOrLoopCfg : CfgState := (buildCfgBoth returnOrLoop.toFunctionData 20).get (by decide)

theorem returnOrLoop_numbered :
    buildCfgBoth returnOrLoop.toFunctionData 20 = some returnOrLoopCfg := (Option.some_get _).symm

theorem returnOrLoop_rpo : rpoPath returnOrLoopCfg.graph 20 = some [0, 2, 3, 1] := by decide

/-- For block 4 the wrong dominator is found. -/
theorem idom_returnOrLoop :
    ¬ ∃ steps map, idom returnOrLoopCfg.prece [0, 2, 3, 1] steps = some map ∧
      MapsToImmediate returnOrLoopCfg.prece [0, 2, 3, 1] map := by
  have preds : returnOrLoopCfg.prece 3 = [2, 3] := by decide
  have dominates : Dominates (fun p v => p ∈ returnOrLoopCfg.prece v) 0 2 3 := by
    have avoids : ∀ {x}, ReachAvoiding (fun p v => p ∈ returnOrLoopCfg.prece v) 2 0 x → x ≠ 3 := by
      rintro x ⟨start, path⟩
      induction path with
      | refl => decide
      | @tail p v before step ih =>
        rintro rfl
        have isPred : p ∈ returnOrLoopCfg.prece 3 := step.1
        rw [preds, List.mem_cons, List.mem_singleton] at isPred
        rcases isPred with rfl | rfl
        · exact ReachAvoiding.target_ne ⟨start, before⟩ rfl
        · exact ih rfl
    exact fun path => avoids path rfl
  have immediate : ImmediateDominator (fun p v => p ∈ returnOrLoopCfg.prece v) 0 2 3 :=
    ⟨by decide, dominates, fun differs isDom => isDom.pred differs.symm (by decide)⟩
  rintro ⟨steps, map, ran, maps⟩
  have ordered := ordered_of_search returnOrLoop_numbered returnOrLoop_rpo
  obtain ⟨up, listing⟩ := ordered.listing
  have ascend := ((idom_solved ordered listing ran).mapsToImmediate_iff ordered listing).mp maps
  exact absurd (ascend 3 (by decide) 2 immediate 3 (by decide) 3 ⟨by decide, .refl⟩) (by decide)

theorem idom_immediate_iff_returnOrLoop :
    (∃ steps map, idom returnOrLoopCfg.prece [0, 2, 3, 1] steps = some map ∧
      MapsToImmediate returnOrLoopCfg.prece [0, 2, 3, 1] map) ↔
      EntriesAscend returnOrLoopCfg.prece [0, 2, 3, 1] :=
  idom_immediate_iff returnOrLoop_numbered returnOrLoop_rpo

end AnonCompiler.Opt.DomTree
