import AnonCompiler.Lib.Fixpoint
import AnonCompiler.Ir.Cfg

/-!
# The flow graph of the newer passes

`CFG` of `opt/utils/cfg.rs` and `v2::DominanceTree` of
`opt/analysis_passes/dom_tree.rs`.  The graph holds the blocks a depth-first search
meets, in reverse postorder, and the successors of each; a branch with both arms to
one block has one successor.  The tree is found by the iterative algorithm on
reverse postorder, and dominance is read off the times at which a walk enters and
leaves a block.

The loops of the source get fuel; `none` is a loop that has not come to an end, or a
panic.  The source collects the predecessors of a block in the order in which a hash
map happens to iterate; the tree is found with any order, and `predecessorsOf` lists
them in reverse postorder.
-/

set_option autoImplicit false

namespace AnonCompiler.Opt

open Ir

/-- `Visit` of the depth-first walks of the source. -/
inductive Visit where
  | enter (bb : BasicBlock)
  | exit (bb : BasicBlock)
deriving DecidableEq, Repr

/-! ## The graph -/

structure CFG where
  entry : BasicBlock
  reversePostorder : List BasicBlock
  successors : BasicBlock → List BasicBlock

namespace CFG

def blocks (G : CFG) : List BasicBlock := G.reversePostorder

def predecessorsOf (G : CFG) (bb : BasicBlock) : List BasicBlock :=
  G.reversePostorder.filter fun source => bb ∈ G.successors source

/-- A target outside the layout is a panic. -/
def checkTargets (F : FunctionData) (targets : List BasicBlock) : Option (List BasicBlock) :=
  if targets.all (· ∈ F.blocks) then some targets else none

def blockSuccessors (F : FunctionData) (bb : BasicBlock) : Option (List BasicBlock) :=
  match (F.terminator bb).bind F.kind with
  | some (.jump target _) => checkTargets F [target]
  | some (.branch _ tTarget _ fTarget _) =>
    checkTargets F (if fTarget = tTarget then [tTarget] else [tTarget, fTarget])
  | some (.ret _) => some []
  | some (.tailCall ..) => some []
  | _ => none

structure Search where
  active : List BasicBlock
  visited : List BasicBlock
  successors : BasicBlock → List BasicBlock
  /-- The latest block comes first, so this is the reversed postorder. -/
  postorder : List BasicBlock
  stack : List Visit

/-- One turn of the search, until the stack is empty. -/
def Search.step (F : FunctionData) (s : Search) : Option (Search ⊕ Search) :=
  match s.stack with
  | [] => some (.inr s)
  | .enter bb :: rest =>
    if bb ∈ s.visited then some (.inl { s with stack := rest })
    else if bb ∈ s.active then some (.inl { s with stack := rest })
    else
      (blockSuccessors F bb).map fun successors => .inl
        { s with
          active := bb :: s.active
          successors := Function.update s.successors bb successors
          stack :=
            (successors.filter fun next => next ∉ bb :: s.active && next ∉ s.visited).map .enter
              ++
              .exit bb :: rest }
  | .exit bb :: rest =>
    some (.inl
      { s with
        active := s.active.erase bb
        visited := if bb ∈ s.visited then s.visited else bb :: s.visited
        postorder := if bb ∈ s.visited then s.postorder else bb :: s.postorder
        stack := rest })

/-- The graph of a function with a body. -/
def ofEntry (F : FunctionData) (fuel : Nat) (entry : BasicBlock) : Option CFG :=
  (Lib.loop (Search.step F) fuel ⟨[], [], fun _ => [], [], [.enter entry]⟩).map fun s =>
    ⟨entry, s.postorder, s.successors⟩

/-- `incoming_edges`: the arms of the predecessors that lead to the block. -/
def incomingEdges (F : FunctionData) (G : CFG) (bb : BasicBlock) : List LogicalEdge :=
  (G.predecessorsOf bb).flatMap fun source => (F.outgoingEdges source).filter (·.target = bb)

end CFG

/-! ## The tree -/

structure DominanceTree where
  entry : BasicBlock
  immediateDominators : BasicBlock → Option BasicBlock
  children : BasicBlock → List BasicBlock
  dfsIn : BasicBlock → Option Nat
  dfsOut : BasicBlock → Option Nat

namespace DominanceTree

/-- Climb from the block that comes later in reverse postorder. -/
def intersect (rpo : List BasicBlock) (idoms : BasicBlock → Option BasicBlock) :
    Nat → BasicBlock → BasicBlock → Option BasicBlock
  | 0, _, _ => none
  | fuel + 1, lhs, rhs =>
    if lhs = rhs then some lhs
    else if rpo.idxOf rhs < rpo.idxOf lhs then
      (idoms lhs).bind fun up => intersect rpo idoms fuel up rhs
    else if rpo.idxOf lhs < rpo.idxOf rhs then
      (idoms rhs).bind fun up => intersect rpo idoms fuel lhs up
    else none

/-- One pass over the blocks, with the table it leaves and whether it changed
anything. -/
def idomPass (preds : BasicBlock → List BasicBlock) (G : CFG) (fuel : Nat) :
    List BasicBlock → (BasicBlock → Option BasicBlock) →
      Option ((BasicBlock → Option BasicBlock) × Bool)
  | [], idoms => some (idoms, false)
  | bb :: rest, idoms =>
    match (preds bb).filter fun pred => (idoms pred).isSome with
    | [] => idomPass preds G fuel rest idoms
    | first :: others =>
      (others.foldlM (fun idom pred =>
        intersect G.reversePostorder idoms fuel pred idom) first).bind
        fun new =>
          if idoms bb = some new then idomPass preds G fuel rest idoms
          else (idomPass preds G fuel rest (Function.update idoms bb (some new))).map
            fun result =>
            (result.1, true)

def idomStep (preds : BasicBlock → List BasicBlock) (G : CFG) (fuel : Nat)
    (idoms : BasicBlock → Option BasicBlock) :
    Option ((BasicBlock → Option BasicBlock) ⊕ (BasicBlock → Option BasicBlock)) :=
  (idomPass preds G fuel G.reversePostorder.tail idoms).map fun result =>
    if result.2 then .inl result.1 else .inr result.1

structure Walk where
  timestamp : Nat
  dfsIn : BasicBlock → Option Nat
  dfsOut : BasicBlock → Option Nat
  stack : List Visit

/-- One turn of `number_tree`. -/
def Walk.step (children : BasicBlock → List BasicBlock) (w : Walk) : Option (Walk ⊕ Walk) :=
  match w.stack with
  | [] => some (.inr w)
  | .enter bb :: rest => some (.inl
      { w with
        timestamp := w.timestamp + 1
        dfsIn := Function.update w.dfsIn bb (some w.timestamp)
        stack := (children bb).map .enter ++ .exit bb :: rest })
  | .exit bb :: rest => some (.inl
      { w with
        timestamp := w.timestamp + 1
        dfsOut := Function.update w.dfsOut bb (some w.timestamp)
        stack := rest })

/-- The children of a block, in reverse postorder. -/
def childrenOf (G : CFG) (idoms : BasicBlock → Option BasicBlock) (bb : BasicBlock) :
    List BasicBlock :=
  G.reversePostorder.tail.filter fun child => idoms child = some bb

/-- The predecessors of a block come in any order. -/
def ofCfgBy (preds : BasicBlock → List BasicBlock) (G : CFG) (fuel : Nat) :
    Option DominanceTree := do
  let idoms ← Lib.loop (idomStep preds G fuel) fuel fun bb =>
    if bb = G.entry then some G.entry else none
  if G.reversePostorder.all fun bb => (idoms bb).isSome then
    let walk ← Lib.loop (Walk.step (childrenOf G idoms)) fuel
      ⟨0, fun _ => none, fun _ => none, [.enter G.entry]⟩
    some ⟨G.entry, fun bb => if bb = G.entry then none else idoms bb,
      childrenOf G idoms, walk.dfsIn, walk.dfsOut⟩
  else none

def ofCfg (G : CFG) (fuel : Nat) : Option DominanceTree := ofCfgBy G.predecessorsOf G fuel

def immediateDominator (T : DominanceTree) (bb : BasicBlock) : Option BasicBlock :=
  T.immediateDominators bb

/-- The passes ask about blocks of the graph only. -/
def dominates (T : DominanceTree) (dominator bb : BasicBlock) : Bool :=
  match T.dfsIn dominator, T.dfsIn bb, T.dfsOut bb, T.dfsOut dominator with
  | some dominatorIn, some blockIn, some blockOut, some dominatorOut =>
    dominatorIn ≤ blockIn && blockOut ≤ dominatorOut
  | _, _, _, _ => false

end DominanceTree

end AnonCompiler.Opt
