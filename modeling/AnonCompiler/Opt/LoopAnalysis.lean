import AnonCompiler.Lib.Enumeration
import AnonCompiler.Lib.NaturalLoops
import AnonCompiler.Opt.DominanceQueries

/-!
# The loops of a function

`LoopAnalysis` of `opt/analysis_passes/loop_analysis.rs`.  The back edges of the
flow graph are collected by their header, the body of each loop is found backwards
from its latches, the loops are sorted by size, and the first later loop that
contains the header of a loop becomes its parent.  `ofCfgBy_correct` says that this
is the forest of natural loops; the graph need not be reducible for it.

The source goes through a hash map of headers and sorts with an unstable sort; what
they leave open is a `Choices`.
-/

set_option autoImplicit false

namespace AnonCompiler.Opt

open Ir Lib

structure CFGEdge where
  src : BasicBlock
  dst : BasicBlock
deriving DecidableEq, Repr

def CFG.edges (G : CFG) : List CFGEdge :=
  G.reversePostorder.flatMap fun src => (G.successors src).map fun dst => ⟨src, dst⟩

structure Loop where
  header : BasicBlock
  body : List BasicBlock
  latches : List BasicBlock
deriving DecidableEq, Repr

def Loop.contains (l : Loop) (bb : BasicBlock) : Bool := bb ∈ l.body

/-- The loops, from small to big, with the index of the parent of each; a root is its own parent. -/
structure LoopAnalysis where
  loops : List Loop
  directParent : List Nat
  loopIndex : BasicBlock → Option Nat
  blockToInnerLoop : BasicBlock → Option Nat

namespace LoopAnalysis

def minLoopContain (A : LoopAnalysis) (bb : BasicBlock) : Option Loop :=
  (A.blockToInnerLoop bb).bind fun index => A.loops[index]?

def parentLoopIndex (A : LoopAnalysis) (index : Nat) : Option Nat :=
  A.directParent[index]?.bind fun parent => if parent ≠ index then some parent else none

def parentLoop (A : LoopAnalysis) (index : Nat) : Option Loop :=
  (A.parentLoopIndex index).bind fun parent => A.loops[parent]?

/-! ## The analysis -/

/-- What the source leaves open: the order of the predecessors of a block and of the headers, which
hash maps decide, and the order of loops of one size. -/
structure Choices (G : CFG) where
  preds : BasicBlock → List BasicBlock
  headers : List BasicBlock → List BasicBlock
  sorted : List Loop → List Loop
  preds_perm : ∀ bb, (preds bb).Perm (G.predecessorsOf bb)
  headers_perm : ∀ keys, (headers keys).Perm keys
  sorted_perm : ∀ loops, (sorted loops).Perm loops
  sorted_pairwise : ∀ loops, (sorted loops).Pairwise fun l₁ l₂ => l₁.body.length ≤ l₂.body.length

/-- The edges whose target dominates their source. -/
def backEdges (G : CFG) (T : DominanceTree) : List CFGEdge :=
  G.edges.filter fun edge => T.dominates edge.dst edge.src

def latchesOf (G : CFG) (T : DominanceTree) (header : BasicBlock) : List BasicBlock :=
  ((backEdges G T).filter fun edge => edge.dst = header).map CFGEdge.src

/-- A natural loop; the walk starts at the latches other than the header. -/
def loopOf (preds : BasicBlock → List BasicBlock) (fuel : Nat) (header : BasicBlock)
    (latches : List BasicBlock) : Option Loop :=
  (Lib.loop (explore preds) fuel
    ⟨latches.filter (· ≠ header), List.insert header latches.dedup⟩).map fun body =>
      ⟨header, body, latches⟩

/-- The first later loop that contains the header. -/
def parentOf (loops : List Loop) (i : Nat) (l₁ : Loop) : Nat :=
  match (loops.zipIdx.drop (i + 1)).find? fun entry => entry.1.contains l₁.header with
  | some (_, j) => j
  | none => i

/-- `entry(bb).or_insert(i)` for the blocks of a loop. -/
def orInsert (i : Nat) (inner : BasicBlock → Option Nat) (bb : BasicBlock) :
    BasicBlock → Option Nat :=
  if (inner bb).isSome then inner else Function.update inner bb (some i)

def ofLoops (loops : List Loop) : LoopAnalysis where
  loops := loops
  directParent := loops.zipIdx.map fun entry => parentOf loops entry.2 entry.1
  loopIndex := indexMap (loops.map Loop.header)
  blockToInnerLoop := loops.zipIdx.foldl
    (fun inner entry => entry.1.body.foldl (orInsert entry.2) inner) fun _ => none

def ofCfgBy (G : CFG) (c : Choices G) (fuel : Nat) : Option (DominanceTree × LoopAnalysis) := do
  let T ← DominanceTree.ofCfgBy c.preds G fuel
  let loops ← (c.headers ((backEdges G T).map CFGEdge.dst).dedup).mapM fun header =>
    loopOf c.preds fuel header (latchesOf G T header)
  some (T, ofLoops (c.sorted loops))

/-! ## The tables over a sorted list of loops -/

section Tables

variable {loops : List Loop} {i j : Nat} {l p q : Loop} {bb h : BasicBlock}

theorem foldl_orInsert (body : List BasicBlock) (inner : BasicBlock → Option Nat) :
    body.foldl (orInsert i) inner bb =
      if (inner bb).isSome then inner bb else if bb ∈ body then some i else none := by
  induction body generalizing inner with
  | nil => cases known : inner bb <;> simp [known]
  | cons first body ih =>
    rw [List.foldl_cons, ih]
    unfold orInsert
    by_cases same : bb = first
    · subst same
      cases known : inner bb <;> simp [known]
    · split
      · simp [same]
      · rw [Function.update_of_ne same]
        simp [same]

theorem blockToInnerLoop_eq :
    (ofLoops loops).blockToInnerLoop bb = loops.findIdx? fun l => l.contains bb := by
  have fold : ∀ (loops : List Loop) (k : Nat) (inner : BasicBlock → Option Nat),
      (loops.zipIdx k).foldl (fun inner entry => entry.1.body.foldl (orInsert entry.2) inner)
          inner bb = if (inner bb).isSome then inner bb
        else (loops.findIdx? fun l => l.contains bb).map (· + k) := by
    intro loops
    induction loops with
    | nil =>
      intro k inner
      cases known : inner bb <;> simp [known]
    | cons l loops ih =>
      intro k inner
      rw [List.zipIdx_cons, List.foldl_cons, ih, foldl_orInsert, List.findIdx?_cons]
      cases known : inner bb with
      | some index => simp
      | none =>
        by_cases member : bb ∈ l.body
        · simp [member, Loop.contains]
        · simp only [member, Loop.contains, decide_false, Option.isSome_none, Bool.false_eq_true,
            if_false, Option.map_map]
          congr 1
          funext n
          simp only [Function.comp_apply]
          omega
  exact (fold loops 0 _).trans (by simp)

/-- The innermost loop is the first one that contains the block. -/
theorem minLoopContain_eq :
    (ofLoops loops).minLoopContain bb = loops.find? fun l => l.contains bb := by
  rw [minLoopContain, blockToInnerLoop_eq, List.find?_eq_bind_findIdx?_getElem?]
  rfl

theorem loopIndex_iff (nodup : (loops.map Loop.header).Nodup) :
    (ofLoops loops).loopIndex h = some i ↔ ∃ l, loops[i]? = some l ∧ l.header = h := by
  refine (indexMap_iff nodup).trans ?_
  simp [List.getElem?_map]

theorem parentLoop_eq (atI : loops[i]? = some l) :
    (ofLoops loops).parentLoop i = (loops.drop (i + 1)).find? fun p => p.contains l.header := by
  have isParent : (ofLoops loops).directParent[i]? = some (parentOf loops i l) := by
    simp [ofLoops, List.getElem?_map, List.getElem?_zipIdx, atI]
  have byIndex : (loops.drop (i + 1)).find? (fun p => p.contains l.header) =
      ((loops.zipIdx.drop (i + 1)).find? fun entry => entry.1.contains l.header).map Prod.fst := by
    conv_lhs => rw [← List.zipIdx_map_fst 0 loops, ← List.map_drop, List.find?_map]
    rfl
  rw [parentLoop, parentLoopIndex, isParent, byIndex, parentOf]
  cases found : (loops.zipIdx.drop (i + 1)).find? fun entry => entry.1.contains l.header with
  | none => simp
  | some entry =>
    obtain ⟨p, j⟩ := entry
    obtain ⟨m, inside, isEntry⟩ := List.mem_drop_iff_getElem.mp (List.mem_of_find?_eq_some found)
    rw [List.getElem_zipIdx] at isEntry
    obtain ⟨isP, isJ⟩ := Prod.mk.inj isEntry
    have later : j ≠ i := by omega
    have atJ : loops[j]? = some p := by
      rw [← isP, List.getElem?_eq_some_iff]
      exact ⟨by simp at inside; omega, by congr 1; omega⟩
    simp [later, ofLoops, atJ]

end Tables

/-! ## The loops are the natural loops -/

section Bodies

variable {F : FunctionData} {G : CFG} (built : G.Built F)

def Edge (G : CFG) (p v : BasicBlock) : Prop := p ∈ G.predecessorsOf v

theorem mem_edges {e : CFGEdge} : e ∈ G.edges ↔ Edge G e.src e.dst := by
  obtain ⟨src, dst⟩ := e
  simp [CFG.edges, Edge, CFG.mem_predecessorsOf]

variable {T : DominanceTree} {header latch : BasicBlock}
  (correct : ∀ d ∈ G.blocks, ∀ bb ∈ G.blocks, T.dominates d bb = true ↔
    Dominates (Edge G) G.entry d bb)

include built correct

theorem mem_latchesOf : latch ∈ latchesOf G T header ↔ BackEdge (Edge G) G.entry latch header := by
  have isBack : latch ∈ latchesOf G T header ↔
      Edge G latch header ∧ T.dominates header latch = true := by
    simp only [latchesOf, backEdges, List.mem_map, List.mem_filter, mem_edges, decide_eq_true_eq]
    constructor
    · rintro ⟨⟨src, dst⟩, ⟨⟨step, dominates⟩, rfl⟩, rfl⟩
      exact ⟨step, dominates⟩
    · rintro ⟨step, dominates⟩
      exact ⟨⟨latch, header⟩, ⟨⟨step, dominates⟩, rfl⟩, rfl⟩
  rw [isBack]
  have known : Edge G latch header → latch ∈ G.blocks ∧ header ∈ G.blocks := by
    intro step
    obtain ⟨member, isNext⟩ := CFG.mem_predecessorsOf.mp step
    exact ⟨member, built.closed latch member header isNext⟩
  constructor
  · rintro ⟨step, dominates⟩
    obtain ⟨memberL, memberH⟩ := known step
    exact ⟨built.reached latch memberL, step, (correct header memberH latch memberL).mp dominates⟩
  · rintro ⟨-, step, dominates⟩
    obtain ⟨memberL, memberH⟩ := known step
    exact ⟨step, (correct header memberH latch memberL).mpr dominates⟩

theorem mem_headers : header ∈ ((backEdges G T).map CFGEdge.dst).dedup ↔
    ∃ latch, BackEdge (Edge G) G.entry latch header := by
  simp only [← mem_latchesOf built correct]
  simp [latchesOf]

omit built correct in
/-- The walk begins with the latches and the header. -/
theorem exploring_init {preds : BasicBlock → List BasicBlock} {latches : List BasicBlock}
    (isLatches : ∀ latch, latch ∈ latches ↔ BackEdge (Edge G) G.entry latch header) :
    Exploring preds (InLoop (Edge G) G.entry header) header
      ⟨latches.filter (· ≠ header), List.insert header latches.dedup⟩ where
  sound := by
    intro x member
    rcases List.mem_insert_iff.mp member with rfl | isLatch
    · exact .inl rfl
    · exact ((isLatches x).mp (List.mem_dedup.mp isLatch)).inLoop
  stopSeen := List.mem_insert_self
  waiting := by
    intro x member
    obtain ⟨isLatch, differs⟩ := List.mem_filter.mp member
    exact ⟨List.mem_insert_of_mem (List.mem_dedup.mpr isLatch), by simpa using differs⟩
  closed := by
    intro x member differs
    refine .inl (List.mem_filter.mpr ⟨?_, by simpa using differs⟩)
    exact List.mem_dedup.mp ((List.mem_insert_iff.mp member).resolve_left differs)
  nodup := (List.nodup_dedup _).insert

section Walk

variable {preds : BasicBlock → List BasicBlock}
  (order : ∀ bb, (preds bb).Perm (G.predecessorsOf bb)) {fuel : Nat} {l : Loop}

omit built correct in
include order in
theorem inLoop_pred {x y : BasicBlock} (inside : InLoop (Edge G) G.entry header x)
    (differs : x ≠ header) (isPred : y ∈ preds x) : InLoop (Edge G) G.entry header y :=
  inside.pred differs ((order x).mem_iff.mp isPred)

omit built correct in
include order in
theorem loopOf_spec {latches : List BasicBlock}
    (isLatches : ∀ latch, latch ∈ latches ↔ BackEdge (Edge G) G.entry latch header)
    (isLoop : loopOf preds fuel header latches = some l) :
    l.header = header ∧ l.latches = latches ∧ l.body.Nodup ∧
      ∀ bb, bb ∈ l.body ↔ InLoop (Edge G) G.entry header bb := by
  obtain ⟨body, ran, rfl⟩ := Option.map_eq_some_iff.mp isLoop
  obtain ⟨kept, nodup, sound, closed⟩ := (exploring_init isLatches).finished
    (fun inside differs isPred => inLoop_pred order inside differs isPred) ran
  refine ⟨rfl, rfl, nodup, fun bb => ⟨sound bb, ?_⟩⟩
  rintro (rfl | ⟨latch, back, -, path⟩)
  · exact kept List.mem_insert_self
  · -- backwards along the path to the latch
    induction path using Relation.ReflTransGen.head_induction_on with
    | refl => exact kept (List.mem_insert_of_mem (List.mem_dedup.mpr ((isLatches latch).mpr back)))
    | head step _ ih => exact closed _ ih step.2 _ ((order _).mem_iff.mpr step.1)

omit correct in
/-- A loop holds blocks of the graph only. -/
theorem inLoop_mem {x : BasicBlock} (back : BackEdge (Edge G) G.entry latch header)
    (inside : InLoop (Edge G) G.entry header x) : x ∈ G.blocks := by
  have source : ∀ {p v}, Edge G p v → p ∈ G.blocks := fun step => (CFG.mem_predecessorsOf.mp step).1
  obtain rfl | ⟨latch', back', -, path⟩ := inside
  · obtain ⟨member, isNext⟩ := CFG.mem_predecessorsOf.mp back.step
    exact built.closed latch member x isNext
  · rcases Relation.ReflTransGen.cases_head path with rfl | ⟨y, step, -⟩
    · exact source back'.step
    · exact source step.1

include order in
theorem loopOf_total (back : BackEdge (Edge G) G.entry latch header)
    (enough : G.edges.length + G.blocks.length < fuel) :
    (loopOf preds fuel header (latchesOf G T header)).isSome := by
  have isLatches : ∀ latch, latch ∈ latchesOf G T header ↔
      BackEdge (Edge G) G.entry latch header := fun latch => mem_latchesOf built correct
  have bounded : ∀ x, InLoop (Edge G) G.entry header x → x ∈ G.blocks :=
    fun x inside => inLoop_mem built back inside
  rw [loopOf, Option.isSome_map]
  refine (exploring_init isLatches).total
    (fun inside differs isPred => inLoop_pred order inside differs isPred) bounded ?_
  have few : (latchesOf G T header).length ≤ G.edges.length := by
    rw [latchesOf, List.length_map]
    exact (List.length_filter_le ..).trans (List.length_filter_le ..)
  have fewer := List.length_filter_le (· ≠ header) (latchesOf G T header)
  simp only
  omega

end Walk

end Bodies

/-! ## The result -/

def StrictlyInside (l₁ l₂ : Loop) : Prop := l₁.body ⊆ l₂.body ∧ ¬ l₂.body ⊆ l₁.body

/-- The forest of the natural loops of a graph. -/
structure Describes (A : LoopAnalysis) (edge : BasicBlock → BasicBlock → Prop)
    (entry : BasicBlock) : Prop where
  header : ∀ h, (∃ l ∈ A.loops, l.header = h) ↔ ∃ latch, BackEdge edge entry latch h
  headers_nodup : (A.loops.map Loop.header).Nodup
  latches : ∀ l ∈ A.loops, ∀ latch, latch ∈ l.latches ↔ BackEdge edge entry latch l.header
  body : ∀ l ∈ A.loops, ∀ bb, bb ∈ l.body ↔ InLoop edge entry l.header bb
  dominates : ∀ l ∈ A.loops, ∀ bb ∈ l.body, Dominates edge entry l.header bb
  laminar : ∀ l₁ ∈ A.loops, ∀ l₂ ∈ A.loops,
    l₁.body.Disjoint l₂.body ∨ l₁.body ⊆ l₂.body ∨ l₂.body ⊆ l₁.body
  loopIndex : ∀ h i, A.loopIndex h = some i ↔ ∃ l, A.loops[i]? = some l ∧ l.header = h
  root : ∀ i l, A.loops[i]? = some l → A.parentLoop i = none →
    ∀ l' ∈ A.loops, ¬ StrictlyInside l l'
  parent : ∀ i l p, A.loops[i]? = some l → A.parentLoop i = some p →
    p ∈ A.loops ∧ StrictlyInside l p ∧ ∀ l' ∈ A.loops, StrictlyInside l l' → p.body ⊆ l'.body
  outside : ∀ bb, A.minLoopContain bb = none → ∀ l ∈ A.loops, bb ∉ l.body
  inner : ∀ bb l, A.minLoopContain bb = some l →
    l ∈ A.loops ∧ bb ∈ l.body ∧ ∀ l' ∈ A.loops, bb ∈ l'.body → l.body ⊆ l'.body

section Forest

variable {edge : BasicBlock → BasicBlock → Prop} {entry : BasicBlock} {loops : List Loop}

/-- What the list of loops has to satisfy. -/
structure Sorted (edge : BasicBlock → BasicBlock → Prop) (entry : BasicBlock)
    (loops : List Loop) : Prop where
  header : ∀ h, (∃ l ∈ loops, l.header = h) ↔ ∃ latch, BackEdge edge entry latch h
  headers_nodup : (loops.map Loop.header).Nodup
  latches : ∀ l ∈ loops, ∀ latch, latch ∈ l.latches ↔ BackEdge edge entry latch l.header
  body : ∀ l ∈ loops, ∀ bb, bb ∈ l.body ↔ InLoop edge entry l.header bb
  nodup : ∀ l ∈ loops, l.body.Nodup
  reached : ∀ l ∈ loops, ∀ bb ∈ l.body, Reachable edge entry bb
  pairwise : loops.Pairwise fun l₁ l₂ => l₁.body.length ≤ l₂.body.length

variable (sorted : Sorted edge entry loops)

include sorted

variable {l : Loop} {j n : Nat} {x : BasicBlock}

theorem Sorted.header_mem (member : l ∈ loops) : l.header ∈ l.body :=
  (sorted.body l member _).mpr (.inl rfl)

theorem Sorted.header_reached (member : l ∈ loops) : Reachable edge entry l.header :=
  sorted.reached l member _ (sorted.header_mem member)

theorem Sorted.nested : Nested Loop.header Loop.body loops where
  common := by
    intro a b x memberA memberB first second
    rcases InLoop.comparable (sorted.reached a memberA x first)
      ((sorted.body a memberA x).mp first) ((sorted.body b memberB x).mp second) with inner | inner
    · exact .inr ((sorted.body a memberA _).mpr inner)
    · exact .inl ((sorted.body b memberB _).mpr inner)
  subset := by
    intro a b memberA memberB inner x member
    refine (sorted.body b memberB x).mpr (InLoop.subset (sorted.header_reached memberA)
      ((sorted.body b memberB _).mp inner) ((sorted.body a memberA x).mp member))
  antisymm := by
    intro a b memberA memberB inner inner'
    exact InLoop.antisymm (sorted.header_reached memberB) ((sorted.body a memberA _).mp inner')
      ((sorted.body b memberB _).mp inner)
  head_mem := fun member => sorted.header_mem member
  heads_nodup := sorted.headers_nodup
  nodup := fun {a} member => sorted.nodup a member
  sorted := sorted.pairwise

/-- A loop lies strictly inside the others that contain its header. -/
theorem Sorted.strictlyInside_iff {i : Nat} {l' : Loop} (atI : loops[i]? = some l)
    (atJ : loops[j]? = some l') : StrictlyInside l l' ↔ i < j ∧ l.header ∈ l'.body := by
  have nested := sorted.nested
  have memberL := List.mem_of_getElem? atI
  have memberL' := List.mem_of_getElem? atJ
  constructor
  · rintro ⟨inside, strict⟩
    have inner := inside (sorted.header_mem memberL)
    refine ⟨nested.lt_of_head atI atJ ?_ inner, inner⟩
    rintro rfl
    rw [Option.some.inj (atI.symm.trans atJ)] at strict
    exact strict (List.Subset.refl _)
  · rintro ⟨lt, inner⟩
    refine ⟨nested.subset memberL memberL' inner, fun back => ?_⟩
    have same := nested.antisymm memberL memberL' inner (back (sorted.header_mem memberL'))
    exact lt.ne (nested.eq_of_head atI atJ same)

omit sorted in
theorem drop_find_none (found : (loops.drop n).find? (fun p => p.contains x) = none) (le : n ≤ j)
    (atJ : loops[j]? = some l) : x ∉ l.body := by
  obtain ⟨m, rfl⟩ := Nat.exists_eq_add_of_le le
  have later : (loops.drop n)[m]? = some l := by rw [List.getElem?_drop, atJ]
  intro inside
  exact List.find?_eq_none.mp found l (List.mem_of_getElem? later) (decide_eq_true inside)

/-- From some position on, the first loop that contains a block is the smallest one. -/
theorem Sorted.drop_find_some {p : Loop}
    (found : (loops.drop n).find? (fun p => p.contains x) = some p) :
    ∃ i, n ≤ i ∧ loops[i]? = some p ∧ x ∈ p.body ∧
      ∀ j l, n ≤ j → loops[j]? = some l → x ∈ l.body → p.body ⊆ l.body := by
  obtain ⟨isIn, m, inBounds, atM, first⟩ := List.find?_eq_some_iff_getElem.mp found
  have atI : loops[n + m]? = some p := by
    rw [← List.getElem?_drop, List.getElem?_eq_some_iff]
    exact ⟨inBounds, atM⟩
  have inside : x ∈ p.body := of_decide_eq_true isIn
  refine ⟨n + m, Nat.le_add_right .., atI, inside, fun j l le atJ inside' => ?_⟩
  obtain ⟨k, rfl⟩ := Nat.exists_eq_add_of_le le
  refine sorted.nested.first_subset atI atJ (Nat.add_le_add_left ?_ n) inside inside'
  -- no earlier loop contains the block
  by_contra before
  have later : (loops.drop n)[k]? = some l := by rw [List.getElem?_drop, atJ]
  obtain ⟨inBounds', atK⟩ := List.getElem?_eq_some_iff.mp later
  have excluded := first k (Nat.not_le.mp before)
  rw [atK, Loop.contains, decide_eq_true inside'] at excluded
  cases excluded

theorem Sorted.describes : (ofLoops loops).Describes edge entry where
  header := sorted.header
  headers_nodup := sorted.headers_nodup
  latches := sorted.latches
  body := sorted.body
  dominates := fun l member bb inside => ((sorted.body l member bb).mp inside).dominates
  laminar := by
    intro l₁ member₁ l₂ member₂
    by_cases disjoint : l₁.body.Disjoint l₂.body
    · exact .inl disjoint
    · obtain ⟨x, first, second⟩ : ∃ x, x ∈ l₁.body ∧ x ∈ l₂.body := by
        by_contra none
        exact disjoint fun x first second => none ⟨x, first, second⟩
      rcases sorted.nested.common member₁ member₂ first second with inner | inner
      · exact .inr (.inl (sorted.nested.subset member₁ member₂ inner))
      · exact .inr (.inr (sorted.nested.subset member₂ member₁ inner))
  loopIndex := fun h i => loopIndex_iff sorted.headers_nodup
  root := by
    intro i l atI isRoot l' member' strict
    obtain ⟨j, atJ⟩ := List.mem_iff_getElem?.mp member'
    obtain ⟨lt, inner⟩ := (sorted.strictlyInside_iff atI atJ).mp strict
    exact drop_find_none ((parentLoop_eq atI).symm.trans isRoot) lt atJ inner
  parent := by
    intro i l p atI isParent
    obtain ⟨j, lt, atJ, inner, smallest⟩ :=
      sorted.drop_find_some ((parentLoop_eq atI).symm.trans isParent)
    refine ⟨List.mem_of_getElem? atJ, (sorted.strictlyInside_iff atI atJ).mpr ⟨lt, inner⟩, ?_⟩
    intro l' member' strict
    obtain ⟨k, atK⟩ := List.mem_iff_getElem?.mp member'
    obtain ⟨lt', inner'⟩ := (sorted.strictlyInside_iff atI atK).mp strict
    exact smallest k l' lt' atK inner'
  outside := by
    intro bb isOutside l member
    obtain ⟨j, atJ⟩ := List.mem_iff_getElem?.mp member
    exact drop_find_none (n := 0) (minLoopContain_eq.symm.trans isOutside) (Nat.zero_le j) atJ
  inner := by
    intro bb l isInner
    obtain ⟨i, -, atI, inside, smallest⟩ :=
      sorted.drop_find_some (n := 0) (minLoopContain_eq.symm.trans isInner)
    refine ⟨List.mem_of_getElem? atI, inside, fun l' member' inside' => ?_⟩
    obtain ⟨j, atJ⟩ := List.mem_iff_getElem?.mp member'
    exact smallest j l' (Nat.zero_le j) atJ inside'

end Forest

section Result

variable {F : FunctionData} {G : CFG} {entry : BasicBlock} {fuel : Nat}

variable {loops : List Loop}

theorem mapM_headers {headers : List BasicBlock} {f : BasicBlock → Option Loop}
    (isHeader : ∀ {h l}, f h = some l → l.header = h) (ran : headers.mapM f = some loops) :
    loops.map Loop.header = headers ∧ ∀ l ∈ loops, f l.header = some l := by
  have pairs := forall₂_of_mapM ran
  clear ran
  induction pairs with
  | nil => exact ⟨rfl, List.forall_mem_nil _⟩
  | cons found _ ih =>
    have isH := isHeader found
    exact ⟨by rw [List.map_cons, isH, ih.1],
      List.forall_mem_cons.mpr ⟨by rw [isH, found], ih.2⟩⟩

theorem sorted_of_found (built : G.Built F) {T : DominanceTree}
    (correct : ∀ d ∈ G.blocks, ∀ bb ∈ G.blocks, T.dominates d bb = true ↔
    Dominates (Edge G) G.entry d bb)
    (c : Choices G)
    (found : (c.headers ((backEdges G T).map CFGEdge.dst).dedup).mapM (fun header =>
      loopOf c.preds fuel header (latchesOf G T header)) = some loops) :
    Sorted (Edge G) G.entry (c.sorted loops) := by
  have isLatches : ∀ h latch, latch ∈ latchesOf G T h ↔ BackEdge (Edge G) G.entry latch h :=
    fun h latch => mem_latchesOf built correct
  obtain ⟨headers, each⟩ := mapM_headers
    (fun {h l} isLoop => (loopOf_spec c.preds_perm (isLatches h) isLoop).1) found
  have spec : ∀ l ∈ c.sorted loops, l.latches = latchesOf G T l.header ∧ l.body.Nodup ∧
      ∀ bb, bb ∈ l.body ↔ InLoop (Edge G) G.entry l.header bb := fun l member =>
    (loopOf_spec c.preds_perm (isLatches l.header)
      (each l ((c.sorted_perm loops).mem_iff.mp member))).2
  have isHeader : ∀ h, (∃ l ∈ c.sorted loops, l.header = h) ↔
      ∃ latch, BackEdge (Edge G) G.entry latch h := by
    intro h
    rw [← mem_headers built correct, ← (c.headers_perm _).mem_iff, ← headers, List.mem_map]
    exact exists_congr fun l => and_congr_left fun _ => (c.sorted_perm loops).mem_iff
  refine ⟨isHeader, ?_, ?_, fun l member => (spec l member).2.2,
    fun l member => (spec l member).2.1, ?_, c.sorted_pairwise loops⟩
  · rw [((c.sorted_perm loops).map Loop.header).nodup_iff, headers, (c.headers_perm _).nodup_iff]
    exact List.nodup_dedup _
  · intro l member latch
    rw [(spec l member).1]
    exact isLatches l.header latch
  · intro l member bb inside
    obtain ⟨latch, back⟩ := (isHeader l.header).mp ⟨l, member, rfl⟩
    exact built.reached bb (inLoop_mem built back (((spec l member).2.2 bb).mp inside))

/-- `LoopAnalysis` comes to an end and finds the forest of the natural loops. -/
theorem ofCfgBy_describes (isCfg : CFG.ofEntry F fuel entry = some G) (c : Choices G) :
    (∃ steps, (ofCfgBy G c steps).isSome) ∧
      ∀ steps T A, ofCfgBy G c steps = some (T, A) → A.Describes (Edge G) G.entry := by
  obtain ⟨-, built⟩ := CFG.ofEntry_built isCfg
  have correct : ∀ {steps T}, DominanceTree.ofCfgBy c.preds G steps = some T →
      ∀ d ∈ G.blocks, ∀ bb ∈ G.blocks, T.dominates d bb = true ↔ Dominates (Edge G) G.entry d bb :=
    fun isTree => (DominanceTree.ofCfgBy_answers built c.preds_perm isTree).2
  constructor
  · obtain ⟨least, ends⟩ := DominanceTree.ofCfgBy_ends built c.preds_perm
    refine ⟨least + G.edges.length + G.blocks.length + 1, ?_⟩
    obtain ⟨T, isTree⟩ := Option.isSome_iff_exists.mp
      (ends (least + G.edges.length + G.blocks.length + 1) (by omega))
    have each : ∀ h ∈ c.headers ((backEdges G T).map CFGEdge.dst).dedup,
        ∃ l, loopOf c.preds (least + G.edges.length + G.blocks.length + 1) h (latchesOf G T h) =
          some l := by
      intro h member
      have isHeader := (c.headers_perm _).mem_iff.mp member
      obtain ⟨latch, back⟩ := (mem_headers built (correct isTree)).mp isHeader
      exact Option.isSome_iff_exists.mp
        (loopOf_total built (correct isTree) c.preds_perm back (by omega))
    obtain ⟨loops, found⟩ := mapM_isSome each
    rw [ofCfgBy, isTree, Option.bind_eq_bind, Option.bind_some, found]
    rfl
  · intro steps T A ran
    obtain ⟨T', isTree, rest⟩ := Option.bind_eq_some_iff.mp ran
    obtain ⟨loops, found, same⟩ := Option.bind_eq_some_iff.mp rest
    cases same
    exact Sorted.describes (sorted_of_found built (correct isTree) c found)

end Result

/-- One way to settle what is open: reverse postorder and a stable sort. -/
def Choices.stable (G : CFG) : Choices G where
  preds := G.predecessorsOf
  headers := id
  sorted := fun loops => loops.mergeSort fun l₁ l₂ => l₁.body.length ≤ l₂.body.length
  preds_perm := fun _ => .refl _
  headers_perm := fun _ => .refl _
  sorted_perm := fun loops => List.mergeSort_perm loops _
  sorted_pairwise := by
    intro loops
    refine (List.pairwise_mergeSort ?_ ?_ loops).imp fun le => of_decide_eq_true le
    · intro l₁ l₂ l₃ le le'
      exact decide_eq_true ((of_decide_eq_true le).trans (of_decide_eq_true le'))
    · intro l₁ l₂
      simpa using Nat.le_total _ _

/-- A loop on block 3 inside a loop of the blocks 2, 3 and 4. -/
def nestedLoops : Ir.Listing where
  retTy := .unit
  name := "f"
  paramsTy := [.int32]
  layout := [(1, [2]), (2, [3]), (3, [4]), (4, [5]), (5, [6])]
  insts :=
    [(1, ⟨.int32, .blockArgRef 0⟩), (2, ⟨.unit, .jump 2 []⟩), (3, ⟨.unit, .branch 1 3 [] 5 []⟩),
      (4, ⟨.unit, .branch 1 3 [] 4 []⟩), (5, ⟨.unit, .jump 2 []⟩), (6, ⟨.unit, .ret none⟩)]
  nextInst := 7
  blockParams := [(1, [1])]
  nextBlock := 6

def nestedLoopsCfg : CFG := (CFG.ofEntry nestedLoops.toFunctionData 20 1).get (by decide)

theorem ofCfgBy_describes_nestedLoops :
    (∃ steps, (ofCfgBy nestedLoopsCfg (.stable nestedLoopsCfg) steps).isSome) ∧
      ∀ steps T A, ofCfgBy nestedLoopsCfg (.stable nestedLoopsCfg) steps = some (T, A) →
        A.Describes (Edge nestedLoopsCfg) nestedLoopsCfg.entry :=
  ofCfgBy_describes (Option.some_get (by decide)).symm (.stable nestedLoopsCfg)

end LoopAnalysis

end AnonCompiler.Opt
