import AnonCompiler.Lib.Dominance
import AnonCompiler.Lib.DepthFirst
import AnonCompiler.Ir.Cfg

/-!
# The dominator tree of the older passes

`build_cfg_both` and `rpo_path` of `opt/analysis_passes/cfg.rs`, `idom` and
`build_dominance_tree` of `opt/analysis_passes/dom_tree.rs`.  Blocks get small
numbers in the order in which a depth-first search meets them, the true arm of a
branch first; the entry is block 0.

The loops of the source are loops with fuel here; `none` is a loop that has not
come to an end, or a panic.  `idom` climbs from two predecessors to a common
ancestor by comparing entries of `rpo` where positions in it would be meant, so
the tree need not hold the immediate dominators.  What is proved of it is that it
approximates dominance from above (`Cfg.numbered`).
-/

set_option autoImplicit false

namespace AnonCompiler.Opt.DomTree

open Ir Lib

/-! ## Numbering the blocks -/

/-- `IDAllocator`: the keys in the order in which they got their ids. -/
def checkOrAlloc (alloc : List BasicBlock) (bb : BasicBlock) : List BasicBlock :=
  if bb ∈ alloc then alloc else alloc ++ [bb]

inductive CfgVisit where
  | enter (node : BasicBlock)
  | falseArm (source : Nat) (target : BasicBlock)
deriving DecidableEq, Repr

structure CfgState where
  alloc : List BasicBlock
  graph : Nat → List Nat
  prece : Nat → List Nat
  visited : List BasicBlock
  stack : List CfgVisit

namespace CfgState

def init (entry : BasicBlock) : CfgState where
  alloc := []
  graph := fun _ => []
  prece := fun _ => []
  visited := []
  stack := [.enter entry]

/-- Give the target an id and record the edge in both directions. -/
def addEdge (s : CfgState) (source : Nat) (target : BasicBlock) : CfgState :=
  let alloc := checkOrAlloc s.alloc target
  let id := alloc.idxOf target
  { s with
    alloc
    graph := Function.update s.graph source (s.graph source ++ [id])
    prece := Function.update s.prece id (s.prece id ++ [source]) }

/-- Enter a block for the first time. -/
def enter (F : FunctionData) (s : CfgState) (node : BasicBlock) : Option CfgState :=
  let alloc := checkOrAlloc s.alloc node
  let id := alloc.idxOf node
  let s := { s with alloc, visited := node :: s.visited }
  match (F.terminator node).bind F.kind with
  | some (.jump target _) => some { s.addEdge id target with stack := .enter target :: s.stack }
  | some (.branch _ tTarget _ fTarget _) =>
    some { s.addEdge id tTarget with stack := .enter tTarget :: .falseArm id fTarget :: s.stack }
  | some (.ret _) => some s
  | some (.tailCall ..) => some s
  | _ => none

def step (F : FunctionData) (s : CfgState) : Option CfgState :=
  match s.stack with
  | [] => some s
  | .enter node :: rest =>
    if node ∈ s.visited then some { s with stack := rest }
    else enter F { s with stack := rest } node
  | .falseArm source target :: rest =>
    some { s.addEdge source target with stack := .enter target :: rest }

end CfgState

def cfgLoop (F : FunctionData) : Nat → CfgState → Option CfgState
  | 0, s => if s.stack = [] then some s else none
  | fuel + 1, s => if s.stack = [] then some s else (s.step F).bind (cfgLoop F fuel)

def buildCfgBoth (F : FunctionData) (fuel : Nat) : Option CfgState :=
  F.entryBlock.bind fun entry => cfgLoop F fuel (.init entry)

/-! ## Reverse postorder -/

inductive RpoVisit where
  | enter (node : Nat)
  | exit (node : Nat)
deriving DecidableEq, Repr

structure RpoState where
  path : List Nat
  visited : List Nat
  stack : List RpoVisit

/-- `path` is pushed to at its front, so it is the reversed path of the source. -/
def RpoState.step (graph : Nat → List Nat) (s : RpoState) : RpoState :=
  match s.stack with
  | [] => s
  | .enter node :: rest =>
    if node ∈ s.visited then { s with stack := rest }
    else
      { s with
        visited := node :: s.visited
        stack := ((graph node).filter (· ∉ node :: s.visited)).map .enter ++ .exit node :: rest }
  | .exit node :: rest => { s with path := node :: s.path, stack := rest }

def rpoLoop (graph : Nat → List Nat) : Nat → RpoState → Option (List Nat)
  | 0, s => if s.stack = [] then some s.path else none
  | fuel + 1, s => if s.stack = [] then some s.path else rpoLoop graph fuel (s.step graph)

def rpoPath (graph : Nat → List Nat) (fuel : Nat) : Option (List Nat) :=
  rpoLoop graph fuel ⟨[], [], [.enter 0]⟩

/-! ## Immediate dominators -/

/-- Entries that have not been set are `none`. -/
abbrev IDomMap := List (Option Nat)

def IDomMap.get (map : IDomMap) (node : Nat) : Option Nat := (map[node]?).join

/-- Climb until both nodes are the same.  The comparison is of entries of `rpo`, as
in the source. -/
def lca (rpo : List Nat) (map : IDomMap) : Nat → Nat → Nat → Option Nat
  | 0, _, _ => none
  | fuel + 1, p₁, p₂ =>
    if p₁ = p₂ then some p₁
    else
      match rpo[p₁]?, rpo[p₂]? with
      | some k₁, some k₂ =>
        if k₁ > k₂ then (map.get p₁).bind fun up => lca rpo map fuel up p₂
        else if k₁ < k₂ then (map.get p₂).bind fun up => lca rpo map fuel p₁ up
        else none
      | _, _ => none

def newIdom (rpo : List Nat) (map : IDomMap) (fuel : Nat) (preds : List Nat) : Option Nat :=
  if preds.all (· < map.length) then
    match preds.filter fun x => (map.get x).isSome with
    | [] => none
    | first :: others => others.foldlM (lca rpo map fuel) first
  else none

/-- One pass over the nodes, with the map it leaves and whether it changed
anything. -/
def idomPass (rpo : List Nat) (prece : Nat → List Nat) (fuel : Nat) :
    List Nat → IDomMap → Option (IDomMap × Bool)
  | [], map => some (map, false)
  | node :: nodes, map =>
    (newIdom rpo map fuel (prece node)).bind fun new =>
      if map.get node = some new then idomPass rpo prece fuel nodes map
      else (idomPass rpo prece fuel nodes (map.set node (some new))).map fun result =>
        (result.1, true)

def idomLoop (rpo : List Nat) (prece : Nat → List Nat) (fuel : Nat) : Nat → IDomMap → Option IDomMap
  | 0, _ => none
  | rounds + 1, map =>
    (idomPass rpo prece fuel rpo.tail map).bind fun result =>
      if result.2 then idomLoop rpo prece fuel rounds result.1 else some result.1

/-- Filling the table of positions panics at a node beyond its end. -/
def idom (prece : Nat → List Nat) (rpo : List Nat) (fuel : Nat) : Option IDomMap :=
  if rpo.all (· < rpo.length) then
    idomLoop rpo prece fuel fuel ((List.replicate rpo.length none).set 0 (some 0))
  else none

/-- The children of a node, in ascending order. -/
def buildDominanceTree (map : IDomMap) (node : Nat) : List Nat :=
  ((List.range map.length).drop 1).filter fun child => map.get child = some node

/-! ## All of it -/

structure Cfg where
  alloc : List BasicBlock
  prece : Nat → List Nat
  rpo : List Nat
  idom : IDomMap

namespace Cfg

def build (F : FunctionData) (fuel : Nat) : Option Cfg :=
  (buildCfgBoth F fuel).bind fun s =>
    (rpoPath s.graph fuel).bind fun rpo =>
      (DomTree.idom s.prece rpo fuel).map fun map => ⟨s.alloc, s.prece, rpo, map⟩

def children (cfg : Cfg) : Nat → List Nat := buildDominanceTree cfg.idom

/-- Some predecessor comes later in reverse postorder. -/
def isLoopHeader (cfg : Cfg) (id : Nat) : Bool :=
  (cfg.prece id).any fun p => p ∈ cfg.rpo && cfg.rpo.idxOf id < cfg.rpo.idxOf p

def parent (cfg : Cfg) (id : Nat) : Nat := (cfg.idom.get id).getD 0

def edge (cfg : Cfg) (p v : Nat) : Prop := p ∈ cfg.prece v

end Cfg

/-! ## What the search finds -/

section Search

variable {F : FunctionData} {entry : BasicBlock} {s s' : CfgState}

variable {alloc : List BasicBlock} {bb b : BasicBlock}

theorem checkOrAlloc_eq (alloc : List BasicBlock) (bb : BasicBlock) :
    ∃ new, checkOrAlloc alloc bb = alloc ++ new ∧
      (new = [] ∧ bb ∈ alloc ∨ new = [bb] ∧ bb ∉ alloc) := by
  unfold checkOrAlloc
  split
  · next known => exact ⟨[], by simp, .inl ⟨rfl, known⟩⟩
  · next unknown => exact ⟨[bb], rfl, .inr ⟨rfl, unknown⟩⟩

theorem mem_checkOrAlloc : b ∈ checkOrAlloc alloc bb ↔ b ∈ alloc ∨ b = bb := by
  unfold checkOrAlloc
  split
  · next known =>
      constructor
      · exact .inl
      · rintro (known' | rfl)
        · exact known'
        · exact known
  · simp

/-- Ids do not change. -/
theorem idxOf_checkOrAlloc (known : b ∈ alloc) :
    (checkOrAlloc alloc bb).idxOf b = alloc.idxOf b := by
  obtain ⟨new, same, -⟩ := checkOrAlloc_eq alloc bb
  rw [same, List.idxOf_append_of_mem known]

theorem nodup_checkOrAlloc (bb : BasicBlock) (nodup : alloc.Nodup) :
    (checkOrAlloc alloc bb).Nodup := by
  obtain ⟨new, same, ⟨rfl, -⟩ | ⟨rfl, unknown⟩⟩ := checkOrAlloc_eq alloc bb
  · simpa [same] using nodup
  · rw [same]
    refine List.nodup_append.mpr ⟨nodup, List.nodup_singleton bb, ?_⟩
    intro b member b' isNew same
    rw [same, List.mem_singleton.mp isNew] at member
    exact unknown member

theorem mem_update_append {g : Nat → List Nat} {key key' x y : Nat} :
    y ∈ Function.update g key (g key ++ [x]) key' ↔ y ∈ g key' ∨ key' = key ∧ y = x := by
  by_cases same : key' = key
  · subst same
    simp
  · simp [same]

/-- The search so far; the edges in `todo` have not been recorded yet. -/
structure Searched (F : FunctionData) (entry : BasicBlock) (todo : List (Nat × BasicBlock))
    (s : CfgState) : Prop where
  nodup : s.alloc.Nodup
  first : s.alloc.head? = some entry ∨ s.alloc = [] ∧ s.visited = [] ∧ s.stack = [.enter entry]
  known : ∀ {b}, b ∈ s.visited → b ∈ s.alloc
  waiting : ∀ {b}, .enter b ∈ s.stack → b ∈ s.alloc ∨ s.alloc = []
  arms : ∀ source target, .falseArm source target ∈ s.stack ∨ (source, target) ∈ todo →
    source < s.alloc.length
  found : ∀ {b}, b ∈ s.alloc → b ∈ s.visited ∨ .enter b ∈ s.stack
  ids : ∀ {p v}, p ∈ s.prece v → p < s.alloc.length ∧ v < s.alloc.length
  both : ∀ {p v}, p ∈ s.prece v ↔ v ∈ s.graph p
  smaller : ∀ {v}, v ≠ 0 → v < s.alloc.length → ∃ p < v, p ∈ s.prece v
  recorded : ∀ {b}, b ∈ s.visited → ∀ e ∈ F.outgoingEdges b,
    e.target ∈ s.alloc ∧ s.alloc.idxOf b ∈ s.prece (s.alloc.idxOf e.target) ∨
      .falseArm (s.alloc.idxOf b) e.target ∈ s.stack ∨ (s.alloc.idxOf b, e.target) ∈ todo

namespace Searched

variable {todo : List (Nat × BasicBlock)}

variable {source : Nat} {target : BasicBlock}

theorem init (F : FunctionData) (entry : BasicBlock) : Searched F entry [] (.init entry) where
  nodup := List.nodup_nil
  first := .inr ⟨rfl, rfl, rfl⟩
  known := by simp [CfgState.init]
  waiting := fun _ => .inr rfl
  arms := by simp [CfgState.init]
  found := by simp [CfgState.init]
  ids := by simp [CfgState.init]
  both := by simp [CfgState.init]
  smaller := by simp [CfgState.init]
  recorded := by simp [CfgState.init]

section

variable (h : Searched F entry [] s) {node : BasicBlock} {rest : List CfgVisit}
  (stack : s.stack = .enter node :: rest)
include h stack

/-- A block that has been visited is not entered again. -/
theorem skip (visited : node ∈ s.visited) : Searched F entry [] { s with stack := rest } where
  nodup := h.nodup
  first := by
    refine .inl (h.first.resolve_right ?_)
    rintro ⟨-, none, -⟩
    simp [none] at visited
  known := h.known
  waiting := fun member => h.waiting (by rw [stack]; exact List.mem_cons_of_mem _ member)
  arms := by
    intro source target waits
    refine h.arms source target ?_
    rw [stack]
    exact waits.imp_left (List.mem_cons_of_mem _)
  found := by
    intro b known
    rcases h.found known with isVisited | waits
    · exact .inl isVisited
    · rw [stack] at waits
      rcases List.mem_cons.mp waits with same | later
      · cases same
        exact .inl visited
      · exact .inr later
  ids := h.ids
  both := h.both
  smaller := h.smaller
  recorded := by
    intro b isVisited e leaves
    have := h.recorded isVisited e leaves
    rw [stack] at this
    simpa using this

/-- Entering a block: all its edges are to be recorded. -/
theorem enter :
    Searched F entry ((F.outgoingEdges node).map fun e =>
        ((checkOrAlloc s.alloc node).idxOf node, e.target))
      { s with
        alloc := checkOrAlloc s.alloc node, visited := node :: s.visited, stack := rest } := by
  have grown : ∀ {n}, n < s.alloc.length → n < (checkOrAlloc s.alloc node).length := by
    intro n lt
    obtain ⟨new, same, -⟩ := checkOrAlloc_eq s.alloc node
    rw [same, List.length_append]
    omega
  have later : ∀ {v}, v ∈ rest → v ∈ s.stack := fun member => by
    rw [stack]
    exact List.mem_cons_of_mem _ member
  have isNode : node ∈ checkOrAlloc s.alloc node := mem_checkOrAlloc.mpr (.inr rfl)
  -- the block has an id, or is the entry of a search that has not begun
  have begun : checkOrAlloc s.alloc node = s.alloc ∧ node ∈ s.alloc ∨
      s.alloc = [] ∧ rest = [] ∧ s.visited = [] ∧ checkOrAlloc s.alloc node = [entry] := by
    rcases h.waiting (stack ▸ List.mem_cons_self ..) with known | empty
    · exact .inl ⟨by simp [checkOrAlloc, known], known⟩
    · obtain ⟨-, none, single⟩ := h.first.resolve_left (by simp [empty])
      rw [stack] at single
      cases single
      exact .inr ⟨empty, rfl, none, by simp [checkOrAlloc, empty]⟩
  refine ⟨nodup_checkOrAlloc node h.nodup, .inl ?_, ?_, ?_, ?_, ?_, ?_, h.both, ?_, ?_⟩
  · rcases begun with ⟨same, known⟩ | ⟨-, -, -, same⟩
    · simp only [same]
      refine h.first.resolve_right ?_
      rintro ⟨empty, -, -⟩
      simp [empty] at known
    · simp [same]
  · intro b visited
    rcases List.mem_cons.mp visited with rfl | earlier
    · exact isNode
    · exact mem_checkOrAlloc.mpr (.inl (h.known earlier))
  · intro b waits
    rcases begun with ⟨same, known⟩ | ⟨-, none, -, -⟩
    · rcases h.waiting (later waits) with known' | empty
      · exact .inl (mem_checkOrAlloc.mpr (.inl known'))
      · simp [empty] at known
    · simp [none] at waits
  · rintro source target (waits | isTodo)
    · exact grown (h.arms source target (.inl (later waits)))
    · obtain ⟨e, -, same⟩ := List.mem_map.mp isTodo
      cases same
      exact List.idxOf_lt_length_iff.mpr isNode
  · intro b known
    rcases mem_checkOrAlloc.mp known with earlier | rfl
    · rcases h.found earlier with visited | waits
      · exact .inl (List.mem_cons_of_mem _ visited)
      · rw [stack] at waits
        rcases List.mem_cons.mp waits with same | waits
        · cases same
          exact .inl (List.mem_cons_self ..)
        · exact .inr waits
    · exact .inl (List.mem_cons_self ..)
  · intro p v isEdge
    exact ⟨grown (h.ids isEdge).1, grown (h.ids isEdge).2⟩
  · intro v notRoot lt
    rcases begun with ⟨same, -⟩ | ⟨-, -, -, same⟩
    · exact h.smaller notRoot (same ▸ lt)
    · simp only [same, List.length_singleton] at lt
      omega
  · intro b visited e leaves
    rcases List.mem_cons.mp visited with rfl | earlier
    · exact .inr (.inr (List.mem_map.mpr ⟨e, leaves, rfl⟩))
    · have known := h.known earlier
      simp only [idxOf_checkOrAlloc known]
      rcases h.recorded earlier e leaves with ⟨target, isEdge⟩ | arm | isTodo
      · refine .inl ⟨mem_checkOrAlloc.mpr (.inl target), ?_⟩
        rwa [idxOf_checkOrAlloc target]
      · rw [stack] at arm
        exact .inr (.inl (by simpa using arm))
      · simp at isTodo

end

/-- The edge of a false arm waits on the stack. -/
theorem postpone (h : Searched F entry ((source, target) :: todo) s) (begun : s.alloc ≠ []) :
    Searched F entry todo { s with stack := .falseArm source target :: s.stack } where
  nodup := h.nodup
  first := .inl (h.first.resolve_right fun none => begun none.1)
  known := h.known
  waiting := fun member => h.waiting (by simpa using member)
  arms := by
    intro source' target' waits
    refine h.arms source' target' ?_
    simp only [List.mem_cons, CfgVisit.falseArm.injEq, Prod.mk.injEq] at waits ⊢
    tauto
  found := fun known => (h.found known).imp_right (List.mem_cons_of_mem _)
  ids := h.ids
  both := h.both
  smaller := h.smaller
  recorded := by
    intro b visited e leaves
    have := h.recorded visited e leaves
    simp only [List.mem_cons, CfgVisit.falseArm.injEq, Prod.mk.injEq] at this ⊢
    tauto

theorem swap {first second : Nat × BasicBlock} (h : Searched F entry [first, second] s) :
    Searched F entry [second, first] s where
  nodup := h.nodup
  first := h.first
  known := h.known
  waiting := h.waiting
  arms := fun source target waits =>
    h.arms source target (by simpa [or_comm (a := _ = second)] using waits)
  found := h.found
  ids := h.ids
  both := h.both
  smaller := h.smaller
  recorded := fun visited e leaves => by
    simpa [or_comm (a := _ = second)] using h.recorded visited e leaves

theorem resume {rest : List CfgVisit} (h : Searched F entry [] s)
    (stack : s.stack = .falseArm source target :: rest) :
    Searched F entry [(source, target)] { s with stack := rest } where
  nodup := h.nodup
  first := by
    refine .inl (h.first.resolve_right ?_)
    rintro ⟨-, -, single⟩
    simp [stack] at single
  known := h.known
  waiting := fun member => h.waiting (by rw [stack]; exact List.mem_cons_of_mem _ member)
  arms := by
    intro source' target' waits
    refine h.arms source' target' ?_
    rw [stack]
    simp only [List.mem_cons, CfgVisit.falseArm.injEq, Prod.mk.injEq, List.not_mem_nil,
      or_false] at waits ⊢
    tauto
  found := fun known => by simpa [stack] using h.found known
  ids := h.ids
  both := h.both
  smaller := h.smaller
  recorded := by
    intro b visited e leaves
    have := h.recorded visited e leaves
    rw [stack] at this
    simp only [List.mem_cons, CfgVisit.falseArm.injEq, Prod.mk.injEq, List.not_mem_nil,
      or_false] at this ⊢
    tauto

/-- Recording an edge gives its target an id, larger than that of the source if it
is new. -/
theorem addEdge (h : Searched F entry ((source, target) :: todo) s) :
    Searched F entry todo { s.addEdge source target with stack := .enter target :: s.stack } := by
  have isSource : source < s.alloc.length := h.arms source target (.inr (List.mem_cons_self ..))
  have begun : s.alloc ≠ [] := fun empty => by simp [empty] at isSource
  have isTarget : target ∈ checkOrAlloc s.alloc target := mem_checkOrAlloc.mpr (.inr rfl)
  have grown : ∀ {n}, n < s.alloc.length → n < (checkOrAlloc s.alloc target).length := by
    intro n lt
    obtain ⟨new, same, -⟩ := checkOrAlloc_eq s.alloc target
    rw [same, List.length_append]
    omega
  have edges : ∀ {p v}, p ∈ (s.addEdge source target).prece v ↔
      p ∈ s.prece v ∨ v = (checkOrAlloc s.alloc target).idxOf target ∧ p = source :=
        mem_update_append
  refine ⟨nodup_checkOrAlloc target h.nodup, .inl ?_, ?_, ?_, ?_, ?_, ?_, ?_, ?_, ?_⟩
  · obtain ⟨new, same, -⟩ := checkOrAlloc_eq s.alloc target
    have isHead : s.alloc.head? = some entry := h.first.resolve_right fun none => begun none.1
    simp only [CfgState.addEdge, same, List.head?_append, isHead, Option.some_or]
  · exact fun visited => mem_checkOrAlloc.mpr (.inl (h.known visited))
  · intro b waits
    rcases List.mem_cons.mp waits with same | earlier
    · cases same
      exact .inl isTarget
    · exact .inl (mem_checkOrAlloc.mpr (.inl ((h.waiting earlier).resolve_right begun)))
  · intro source' target' waits
    refine grown (h.arms source' target' ?_)
    simp only [List.mem_cons, reduceCtorEq, false_or] at waits ⊢
    tauto
  · intro b known
    rcases mem_checkOrAlloc.mp known with earlier | rfl
    · exact (h.found earlier).imp_right (List.mem_cons_of_mem _)
    · exact .inr (List.mem_cons_self ..)
  · intro p v isEdge
    rcases edges.mp isEdge with earlier | ⟨rfl, rfl⟩
    · exact ⟨grown (h.ids earlier).1, grown (h.ids earlier).2⟩
    · exact ⟨grown isSource, List.idxOf_lt_length_iff.mpr isTarget⟩
  · intro p v
    refine edges.trans (Iff.trans ?_ mem_update_append.symm)
    rw [h.both, and_comm (a := p = source)]
  · intro v notRoot lt
    by_cases known : v < s.alloc.length
    · obtain ⟨p, smaller, isEdge⟩ := h.smaller notRoot known
      exact ⟨p, smaller, edges.mpr (.inl isEdge)⟩
    · -- the id is new
      obtain ⟨new, same, ⟨rfl, -⟩ | ⟨rfl, unknown⟩⟩ := checkOrAlloc_eq s.alloc target
      · simp only [CfgState.addEdge, same, List.append_nil] at lt
        exact absurd lt known
      · simp only [CfgState.addEdge, same, List.length_append, List.length_singleton] at lt
        have isNew : v = (checkOrAlloc s.alloc target).idxOf target := by
          rw [same, List.idxOf_append_of_notMem unknown, List.idxOf_cons_self]
          omega
        exact ⟨source, by omega, edges.mpr (.inr ⟨isNew, rfl⟩)⟩
  · intro b visited e leaves
    have isKnown := h.known visited
    have sameId : (checkOrAlloc s.alloc target).idxOf b = s.alloc.idxOf b :=
      idxOf_checkOrAlloc isKnown
    simp only [CfgState.addEdge, sameId]
    rcases h.recorded visited e leaves with ⟨known, isEdge⟩ | arm | isTodo
    · refine .inl ⟨mem_checkOrAlloc.mpr (.inl known), edges.mpr (.inl ?_)⟩
      rwa [idxOf_checkOrAlloc known]
    · exact .inr (.inl (List.mem_cons_of_mem _ arm))
    · rcases List.mem_cons.mp isTodo with same | later
      · obtain ⟨isSource', isTarget'⟩ := Prod.mk.inj same
        rw [isTarget']
        exact .inl ⟨isTarget, edges.mpr (.inr ⟨rfl, isSource'⟩)⟩
      · exact .inr (.inr later)

theorem step (h : Searched F entry [] s) (stepped : s.step F = some s') :
    Searched F entry [] s' := by
  unfold CfgState.step at stepped
  split at stepped
  · obtain rfl := Option.some.inj stepped
    exact h
  · next node rest stack =>
      split at stepped
      · next visited =>
          obtain rfl := Option.some.inj stepped
          exact h.skip stack visited
      · have entered := h.enter stack
        have begun : checkOrAlloc s.alloc node ≠ [] :=
          List.ne_nil_of_mem (mem_checkOrAlloc.mpr (.inr rfl))
        unfold CfgState.enter at stepped
        dsimp only at stepped
        split at stepped
        · next target args kind =>
            obtain rfl := Option.some.inj stepped
            obtain ⟨terminator, isTerminator, isKind⟩ := Option.bind_eq_some_iff.mp kind
            simp only [FunctionData.outgoingEdges, isTerminator, isKind, List.map_cons,
              List.map_nil] at entered
            exact entered.addEdge
        · next cond t tArgs f fArgs kind =>
            obtain rfl := Option.some.inj stepped
            obtain ⟨terminator, isTerminator, isKind⟩ := Option.bind_eq_some_iff.mp kind
            simp only [FunctionData.outgoingEdges, isTerminator, isKind, List.map_cons,
              List.map_nil] at entered
            exact (entered.swap.postpone begun).addEdge
        · next value kind =>
            obtain rfl := Option.some.inj stepped
            obtain ⟨terminator, isTerminator, isKind⟩ := Option.bind_eq_some_iff.mp kind
            simpa only [FunctionData.outgoingEdges, isTerminator, isKind,
              List.map_nil] using entered
        · next callee args kind =>
            obtain rfl := Option.some.inj stepped
            obtain ⟨terminator, isTerminator, isKind⟩ := Option.bind_eq_some_iff.mp kind
            simpa only [FunctionData.outgoingEdges, isTerminator, isKind,
              List.map_nil] using entered
        · cases stepped
  · next source target rest stack =>
      obtain rfl := Option.some.inj stepped
      exact (h.resume stack).addEdge

theorem loop {fuel : Nat} (h : Searched F entry [] s) (ran : cfgLoop F fuel s = some s') :
    Searched F entry [] s' ∧ s'.stack = [] := by
  induction fuel generalizing s with
  | zero =>
    unfold cfgLoop at ran
    split at ran
    · next empty =>
        obtain rfl := Option.some.inj ran
        exact ⟨h, empty⟩
    · cases ran
  | succ fuel ih =>
    unfold cfgLoop at ran
    split at ran
    · next empty =>
        obtain rfl := Option.some.inj ran
        exact ⟨h, empty⟩
    · obtain ⟨next, stepped, ran⟩ := Option.bind_eq_some_iff.mp ran
      exact ih (h.step stepped) ran

end Searched

end Search

/-! ## What reverse postorder holds -/

section Rpo

open DepthFirst

variable {graph : Nat → List Nat} {s : RpoState}

def RpoVisit.toVisit : RpoVisit → DepthFirst.Visit Nat
  | .enter node => .enter node
  | .exit node => .exit node

def RpoState.search (s : RpoState) : DepthFirst.State Nat := ⟨s.path, s.stack.map RpoVisit.toVisit⟩

/-- `visited` holds the nodes that have been entered. -/
def RpoState.Marked (s : RpoState) : Prop := ∀ v, v ∈ s.visited ↔ s.search.Seen v

variable {fuel : Nat} {rpo : List Nat}

variable (graph) in
theorem RpoState.search_step (marked : s.Marked) (more : s.stack ≠ []) :
    Step graph s.search (s.step graph).search ∧ (s.step graph).Marked := by
  obtain ⟨path, visited, stack⟩ := s
  cases stack with
  | nil => exact absurd rfl more
  | cons visit rest =>
    cases visit with
    | enter node =>
      have mark : ∀ v, v ∈ visited ↔ State.Seen ⟨path, rest.map RpoVisit.toVisit⟩ v := by
        intro v
        refine (marked v).trans ?_
        simp [State.Seen, search, RpoVisit.toVisit]
      by_cases again : node ∈ visited
      · have stepped : RpoState.step graph ⟨path, visited, .enter node :: rest⟩ =
            ⟨path, visited, rest⟩ := if_pos again
        rw [stepped]
        exact ⟨.skip ((mark node).mp again), mark⟩
      · have stepped : RpoState.step graph ⟨path, visited, .enter node :: rest⟩ =
            ⟨path, node :: visited, ((graph node).filter (· ∉ node :: visited)).map .enter ++
              .exit node :: rest⟩ := if_neg again
        have isSearch : RpoState.search ⟨path, node :: visited,
            ((graph node).filter (· ∉ node :: visited)).map .enter ++ .exit node :: rest⟩ =
            ⟨path, ((graph node).filter (· ∉ node :: visited)).map .enter ++
              .exit node :: rest.map RpoVisit.toVisit⟩ := by
          simp only [search, List.map_append, List.map_map, List.map_cons]
          rfl
        rw [stepped]
        refine ⟨?_, ?_⟩
        · rw [isSearch]
          refine .enter (fun seen => again ((mark node).mpr seen)) List.filter_sublist ?_
          intro w edge
          by_cases known : w ∈ node :: visited
          · exact (List.mem_cons.mp known).imp_right fun known => .inl ((mark w).mp known)
          · exact .inr (.inr (List.mem_filter.mpr ⟨edge, by simpa using known⟩))
        · intro v
          rw [isSearch, List.mem_cons, mark]
          simp only [State.Seen, List.mem_append, List.mem_map, reduceCtorEq, and_false,
            exists_false, false_or, List.mem_cons, DepthFirst.Visit.exit.injEq]
          tauto
    | exit node =>
      refine ⟨.exit, fun v => (marked v).trans ?_⟩
      simp only [State.Seen, search, RpoState.step, List.map_cons, RpoVisit.toVisit, List.mem_cons,
        DepthFirst.Visit.exit.injEq]
      tauto

theorem rpoLoop_finished (marked : s.Marked) (searching : Searching graph 0 s.search)
    (ran : rpoLoop graph fuel s = some rpo) :
    ∃ s', Searching graph 0 s' ∧ s'.stack = [] ∧ s'.path = rpo := by
  induction fuel generalizing s with
  | zero =>
    unfold rpoLoop at ran
    split at ran
    · next empty => exact ⟨s.search, searching, by simp [RpoState.search, empty],
        Option.some.inj ran⟩
    · cases ran
  | succ fuel ih =>
    unfold rpoLoop at ran
    split at ran
    · next empty => exact ⟨s.search, searching, by simp [RpoState.search, empty],
        Option.some.inj ran⟩
    · next more =>
        obtain ⟨stepped, marked'⟩ := RpoState.search_step graph marked more
        exact ih marked' (searching.step stepped) ran

/-- The nodes in reverse postorder are the reachable ones, the root first, and every other node has
a predecessor before it. -/
theorem rpoPath_earlier (ran : rpoPath graph fuel = some rpo) :
    (∀ x, Reachable (fun p v => v ∈ graph p) 0 x ↔ x ∈ rpo) ∧ rpo.Nodup ∧ rpo.head? = some 0 ∧
      ∀ v ∈ rpo, v ≠ 0 → ∃ p, v ∈ graph p ∧ rpo.idxOf p < rpo.idxOf v := by
  have marked : RpoState.Marked ⟨[], [], [.enter 0]⟩ := by
    intro v
    simp [State.Seen, RpoState.search, RpoVisit.toVisit]
  obtain ⟨s, searching, empty, rfl⟩ := rpoLoop_finished marked (Searching.init graph 0) ran
  exact searching.finished empty

theorem rpoPath_spec (ran : rpoPath graph fuel = some rpo) :
    (∀ x, Reachable (fun p v => v ∈ graph p) 0 x ↔ x ∈ rpo) ∧ rpo.Nodup ∧ rpo.head? = some 0 := by
  obtain ⟨reached, nodup, isRoot, -⟩ := rpoPath_earlier ran
  exact ⟨reached, nodup, isRoot⟩

/-- The search ends on a finite graph. -/
theorem rpoPath_total {nodes : List Nat}
    (known : ∀ v, Reachable (fun p v => v ∈ graph p) 0 v → v ∈ nodes) :
    ∃ fuel rpo, rpoPath graph fuel = some rpo := by
  have runs : ∀ {n : Nat} {s : RpoState}, s.Marked → Searching graph 0 s.search →
      weight graph nodes s.search ≤ n → ∃ rpo, rpoLoop graph n s = some rpo := by
    intro n
    induction n with
    | zero =>
      intro s _ _ enough
      have none : s.stack = [] := by
        have length : s.search.stack.length = 0 :=
          (Nat.add_eq_zero_iff.mp (Nat.le_zero.mp enough)).2
        simpa [RpoState.search] using length
      exact ⟨s.path, by rw [rpoLoop, if_pos none]⟩
    | succ n ih =>
      intro s marked searching enough
      by_cases empty : s.stack = []
      · exact ⟨s.path, by rw [rpoLoop, if_pos empty]⟩
      · obtain ⟨stepped, marked'⟩ := RpoState.search_step graph marked empty
        have less : weight graph nodes (s.step graph).search < weight graph nodes s.search :=
          stepped.weight_lt fun v waits => known v
            (searching.reached (.inr (List.mem_map_of_mem (f := DepthFirst.Visit.node) waits)))
        obtain ⟨rpo, ran⟩ := ih marked' (searching.step stepped) (by omega)
        exact ⟨rpo, by rw [rpoLoop, if_neg empty]; exact ran⟩
  have marked : RpoState.Marked ⟨[], [], [.enter 0]⟩ := by
    intro v
    simp [State.Seen, RpoState.search, RpoVisit.toVisit]
  exact ⟨_, runs marked (Searching.init graph 0) (le_refl _)⟩

end Rpo

/-! ## What the parent map holds -/

section Idom

variable {rpo : List Nat} {map map' : IDomMap} {prece : Nat → List Nat} {fuel : Nat}

def IDomMap.parent (map : IDomMap) (node : Nat) : Nat := (map.get node).getD 0

variable {result x : Nat} {nodes : List Nat}

theorem lca_above {p₁ p₂ : Nat} (h : lca rpo map fuel p₁ p₂ = some result) :
    Above map.parent result p₁ ∧ Above map.parent result p₂ := by
  have climb : ∀ {p up}, map.get p = some up → Above map.parent up p := by
    intro p up isUp
    have : map.parent p = up := by simp [IDomMap.parent, isUp]
    exact this ▸ parent_above p
  induction fuel generalizing p₁ p₂ with
  | zero => cases h
  | succ fuel ih =>
    unfold lca at h
    split at h
    · next same =>
        obtain rfl := Option.some.inj h
        exact ⟨.refl _, same ▸ .refl _⟩
    · split at h
      · split at h
        · obtain ⟨up, isUp, h⟩ := Option.bind_eq_some_iff.mp h
          obtain ⟨first, second⟩ := ih h
          exact ⟨first.trans (climb isUp), second⟩
        · split at h
          · obtain ⟨up, isUp, h⟩ := Option.bind_eq_some_iff.mp h
            obtain ⟨first, second⟩ := ih h
            exact ⟨first, second.trans (climb isUp)⟩
          · cases h
      · cases h

theorem foldlM_lca_above {others : List Nat} {first : Nat}
    (h : others.foldlM (lca rpo map fuel) first = some result) :
    ∀ x ∈ first :: others, Above map.parent result x := by
  induction others generalizing first with
  | nil =>
    obtain rfl : first = result := by simpa using h
    intro x member
    rw [List.mem_singleton.mp member]
    exact .refl _
  | cons other others ih =>
    simp only [List.foldlM_cons, Option.bind_eq_bind, Option.bind_eq_some_iff] at h
    obtain ⟨next, joined, h⟩ := h
    have above := ih h
    have toNext := above next (List.mem_cons_self ..)
    intro x member
    rcases List.mem_cons.mp member with rfl | member
    · exact toNext.trans (lca_above joined).1
    · rcases List.mem_cons.mp member with rfl | later
      · exact toNext.trans (lca_above joined).2
      · exact above x (List.mem_cons_of_mem _ later)

theorem newIdom_above {preds : List Nat} {new : Nat} (h : newIdom rpo map fuel preds = some new)
    {p : Nat} (isPred : p ∈ preds) (set : (map.get p).isSome) : Above map.parent new p := by
  unfold newIdom at h
  split at h
  · have processed : p ∈ preds.filter fun x => (map.get x).isSome :=
      List.mem_filter.mpr ⟨isPred, set⟩
    split at h
    · next none => simp [none] at processed
    · next first others isList =>
        rw [isList] at processed
        exact foldlM_lca_above h p processed
  · cases h

theorem get_set {node : Nat} {new : Option Nat} :
    IDomMap.get (map.set node new) x = if node = x ∧ x < map.length then new else map.get x := by
  unfold IDomMap.get
  rw [List.getElem?_set]
  by_cases same : node = x
  · subst same
    by_cases inside : node < map.length <;> simp [inside]
  · simp [same]

/-- A pass sets only the nodes it visits. -/
theorem idomPass_get {changed : Bool} (h : idomPass rpo prece fuel nodes map = some (map', changed))
    (other : x ∉ nodes) : map'.get x = map.get x ∧ map'.length = map.length := by
  induction nodes generalizing map changed with
  | nil =>
    cases h
    exact ⟨rfl, rfl⟩
  | cons node nodes ih =>
    rw [List.mem_cons, not_or] at other
    obtain ⟨new, -, h⟩ := Option.bind_eq_some_iff.mp h
    split at h
    · exact ih h other.2
    · obtain ⟨⟨last, changed'⟩, later, same⟩ := Option.map_eq_some_iff.mp h
      cases same
      obtain ⟨unset, length⟩ := ih later other.2
      refine ⟨unset.trans ?_, length.trans (List.length_set ..)⟩
      rw [get_set, if_neg fun same => other.1 same.1.symm]

/-- A pass that changes nothing finds the values that are there. -/
theorem idomPass_unchanged (h : idomPass rpo prece fuel nodes map = some (map', false)) :
    map' = map ∧ ∀ node ∈ nodes, ∃ new, newIdom rpo map fuel (prece node) = some new ∧
      map.get node = some new := by
  induction nodes with
  | nil =>
    cases h
    exact ⟨rfl, fun node member => absurd member List.not_mem_nil⟩
  | cons node nodes ih =>
    obtain ⟨new, isNew, h⟩ := Option.bind_eq_some_iff.mp h
    split at h
    · next same =>
        obtain ⟨rfl, later⟩ := ih h
        refine ⟨rfl, fun x member => ?_⟩
        rcases List.mem_cons.mp member with rfl | member
        · exact ⟨new, isNew, same⟩
        · exact later x member
    · obtain ⟨result, -, same⟩ := Option.map_eq_some_iff.mp h
      cases same

/-- The map a converged loop leaves. -/
structure Converged (rpo : List Nat) (prece : Nat → List Nat) (fuel : Nat)
    (map : IDomMap) : Prop where
  root : map.get 0 = some 0
  set : ∀ {x}, (map.get x).isSome → x ∈ rpo
  stable : ∀ node ∈ rpo.tail, ∃ new, newIdom rpo map fuel (prece node) = some new ∧
    map.get node = some new

theorem idom_converged (isRoot : rpo.head? = some 0) (nodup : rpo.Nodup)
    (h : idom prece rpo fuel = some map) : Converged rpo prece fuel map := by
  obtain ⟨rest, rfl⟩ : ∃ rest, rpo = 0 :: rest := by
    cases rpo with
    | nil => cases isRoot
    | cons first rest =>
      cases isRoot
      exact ⟨rest, rfl⟩
  have rootOnce : 0 ∉ rest := (List.nodup_cons.mp nodup).1
  have loop : ∀ {rounds map₀}, IDomMap.get map₀ 0 = some 0 →
      (∀ {x}, (IDomMap.get map₀ x).isSome → x ∈ 0 :: rest) →
      idomLoop (0 :: rest) prece fuel rounds map₀ = some map →
        Converged (0 :: rest) prece fuel map := by
    intro rounds
    induction rounds with
    | zero =>
      intro map₀ _ _ ran
      cases ran
    | succ rounds ih =>
      intro map₀ root set ran
      obtain ⟨⟨map₁, changed⟩, passed, ran⟩ := Option.bind_eq_some_iff.mp ran
      dsimp only at ran
      split at ran
      · refine ih ((idomPass_get passed rootOnce).1.trans root) ?_ ran
        intro x isSet
        by_contra outside
        rw [List.mem_cons, not_or] at outside
        rw [(idomPass_get passed outside.2).1] at isSet
        exact absurd (set isSet) (by simp [outside])
      · next unchanged =>
          obtain rfl := Option.some.inj ran
          rw [Bool.not_eq_true] at unchanged
          subst unchanged
          obtain ⟨rfl, stable⟩ := idomPass_unchanged passed
          exact ⟨root, set, stable⟩
  unfold idom at h
  split at h
  · refine loop ?_ ?_ h
    · simp [get_set]
    · intro x isSet
      rw [get_set] at isSet
      split at isSet
      · next isZero => simp [← isZero.1]
      · simp [IDomMap.get, List.getElem?_replicate] at isSet
        split at isSet <;> simp at isSet
  · cases h

end Idom

/-! ## The tree of a function -/

section Searched

variable {F : FunctionData} {entry : BasicBlock} {s : CfgState}

theorem Searched.sameGraph (h : Searched F entry [] s) :
    (fun p v => v ∈ s.graph p) = fun p v => p ∈ s.prece v := by
  funext p v
  exact propext h.both.symm

theorem Searched.isHead (h : Searched F entry [] s) (empty : s.stack = []) :
    s.alloc.head? = some entry := h.first.resolve_right fun none => by simp [empty] at none

/-- The ids that have been handed out are those of the reachable blocks. -/
theorem Searched.reachable_iff (h : Searched F entry [] s) (empty : s.stack = []) {id : Nat} :
    Reachable (fun p v => p ∈ s.prece v) 0 id ↔ id < s.alloc.length := by
  constructor
  · intro path
    cases path with
    | refl =>
      rw [List.length_pos_iff]
      rintro none
      simpa [none] using h.isHead empty
    | tail _ isEdge => exact (h.ids isEdge).2
  · intro lt
    induction id using Nat.strong_induction_on with
    | _ id ih =>
      by_cases isZero : id = 0
      · subst isZero
        exact Relation.ReflTransGen.refl
      · obtain ⟨p, smaller, isEdge⟩ := h.smaller isZero lt
        exact (ih p smaller (h.ids isEdge).1).tail isEdge

end Searched

/-- The numbered graph and the tree belong to the function. -/
structure Cfg.Describes (cfg : Cfg) (F : FunctionData) : Prop where
  numbered : Numbered cfg.parent cfg.edge cfg.children
  nodup : cfg.alloc.Nodup
  entry : ∃ entry, F.entryBlock = some entry ∧ cfg.alloc[0]? = some entry
  reachable : ∀ {id}, Reachable cfg.edge 0 id ↔ id < cfg.alloc.length
  edges : ∀ {b}, b ∈ cfg.alloc → ∀ e ∈ F.outgoingEdges b, e.target ∈ cfg.alloc ∧
    cfg.edge (cfg.alloc.idxOf b) (cfg.alloc.idxOf e.target)

theorem Cfg.describes {F : FunctionData} {fuel : Nat} {cfg : Cfg}
    (built : Cfg.build F fuel = some cfg) : cfg.Describes F := by
  obtain ⟨s, searched, built⟩ := Option.bind_eq_some_iff.mp built
  obtain ⟨rpo, isRpo, built⟩ := Option.bind_eq_some_iff.mp built
  obtain ⟨map, isMap, rfl⟩ := Option.map_eq_some_iff.mp built
  obtain ⟨entry, isEntry, searched⟩ := Option.bind_eq_some_iff.mp searched
  obtain ⟨h, empty⟩ := (Searched.init F entry).loop searched
  obtain ⟨reached, nodup, isRoot⟩ := rpoPath_spec isRpo
  have converged := idom_converged isRoot nodup isMap
  rw [h.sameGraph] at reached
  have isHead := h.isHead empty
  have reachable : ∀ {id}, Reachable (fun p v => p ∈ s.prece v) 0 id ↔ id < s.alloc.length :=
    h.reachable_iff empty
  have inTail : ∀ {v}, v ∈ rpo → v ≠ 0 → v ∈ rpo.tail := by
    intro v member notRoot
    cases rpo with
    | nil => cases isRoot
    | cons first rest =>
      cases isRoot
      exact (List.mem_cons.mp member).resolve_left notRoot
  have isSet : ∀ {v}, v ∈ rpo → ∃ p, map.get v = some p := by
    intro v member
    by_cases isZero : v = 0
    · subst isZero
      exact ⟨0, converged.root⟩
    · obtain ⟨new, -, isNew⟩ := converged.stable v (inTail member isZero)
      exact ⟨new, isNew⟩
  refine ⟨⟨⟨?_, ?_⟩, ?_, ?_, ?_⟩, h.nodup, ⟨entry, isEntry, ?_⟩, reachable, ?_⟩
  · simp [Cfg.parent, converged.root]
  · intro p v notRoot reachedP isEdge
    have member := (reached v).mp (reachedP.tail isEdge)
    obtain ⟨new, isNew, same⟩ := converged.stable v (inTail member notRoot)
    obtain ⟨up, isUp⟩ := isSet ((reached p).mp reachedP)
    have above := newIdom_above isNew isEdge (by simp [isUp])
    have isParent : IDomMap.parent map v = new := by simp [IDomMap.parent, same]
    rw [← isParent] at above
    exact above
  · intro v reachedV notRoot
    obtain ⟨p, smaller, isEdge⟩ := h.smaller notRoot (reachable.mp reachedV)
    exact ⟨p, smaller, isEdge, reachable.mpr (h.ids isEdge).1⟩
  · intro v c
    simp only [Cfg.children, buildDominanceTree, List.mem_filter, decide_eq_true_eq, Cfg.parent]
    constructor
    · rintro ⟨member, isParent⟩
      have notRoot : c ≠ 0 := by
        rintro rfl
        rw [List.range_eq_range', List.drop_range', List.mem_range'_1] at member
        omega
      exact ⟨(reached c).mpr (converged.set (by simp [isParent])), notRoot, by simp [isParent]⟩
    · rintro ⟨reachedC, notRoot, isParent⟩
      obtain ⟨p, isP⟩ := isSet ((reached c).mp reachedC)
      have inside : c < map.length := by
        by_contra beyond
        simp [IDomMap.get, List.getElem?_eq_none_iff.mpr (Nat.le_of_not_lt beyond)] at isP
      refine ⟨?_, ?_⟩
      · rw [List.range_eq_range', List.drop_range', List.mem_range'_1]
        omega
      · rw [isP] at isParent ⊢
        exact congrArg some isParent
  · intro v
    have sorted : (List.range map.length).Pairwise (· < ·) := List.pairwise_lt_range
    exact (sorted.sublist (List.drop_sublist ..)).sublist List.filter_sublist
  · rw [← List.head?_eq_getElem?, isHead]
  · intro b known e leaves
    have visited : b ∈ s.visited := by simpa [empty] using h.found known
    have recorded := h.recorded visited e leaves
    simp only [empty, List.not_mem_nil, or_false] at recorded
    exact recorded

end AnonCompiler.Opt.DomTree
