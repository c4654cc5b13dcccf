import AnonCompiler.Ir.WellFormed
import AnonCompiler.Lib.SearchTree

/-!
# Equality chains as decision trees

`opt/passes/chain_to_switch.rs`: a chain of blocks that only test one value
for equality with constants is replaced by a tree of blocks that halves the
sorted constants.

```text
check_k:  %t = eq x, k;    br %t, handler_k, split_k
split_k:  %u = lt x, k;    br %u, left_subtree, right_subtree
```

The chain head becomes the root of the tree, and keeps its parameters.  `none`
stands for a panic.
-/

set_option autoImplicit false

namespace AnonCompiler.Opt.ChainToSwitch

open Ir

/-- A chain shorter than this is already as cheap as a tree. -/
def minChainLen : Nat := 4

structure Link where
  block : BasicBlock
  k : BitVec 32
  handler : BasicBlock
  handlerArgs : List Inst
  /-- The false target: the next chain block, or the default. -/
  next : BasicBlock
  nextArgs : List Inst
deriving DecidableEq, Repr

/-! ## Detecting a chain -/

/-- The tested value and the case constant; either side may carry the constant. -/
def testedValue (P : Program) (F : FunctionData) (lhs rhs : Inst) : Option (Inst × BitVec 32) :=
  match kindIn P F rhs with
  | some (.integer k) => some (lhs, k)
  | _ =>
    match kindIn P F lhs with
    | some (.integer k) => some (rhs, k)
    | _ => none

/-- The test that is the entire content of a chain block. -/
def linkOf (P : Program) (F : FunctionData) (cur : BasicBlock) : List Inst → Option (Inst × Link)
  | [test, last] =>
    match F.kind test, F.kind last with
    | some (.binary .eq lhs rhs), some (.branch cond tTarget tArgs fTarget fArgs) =>
      if cond = test then
        (testedValue P F lhs rhs).map fun (value, k) =>
          (value, ⟨cur, k, tTarget, tArgs, fTarget, fArgs⟩)
      else none
    | _, _ => none
  | _ => none

/-- The loop of `detect_chain`.  Every round adds a link with a new constant, so no more
rounds than blocks are needed. -/
def detectFrom (P : Program) (F : FunctionData) :
    Nat → BasicBlock → Option Inst → List Link → Option (Option Inst × List Link)
  | 0, _, _, _ => none
  | rounds + 1, cur, x, links =>
    (F.blockInsts cur).bind fun insts =>
      match linkOf P F cur insts with
      | none => some (x, links)
      | some (value, link) =>
        if x.any (· ≠ value) then some (x, links)
        else if links.any (·.k = link.k) || link.next = cur then some (some value, links)
        else detectFrom P F rounds link.next (some value) (links ++ [link])

/-- The tested value, the links, the default block and the arguments of the default edge. -/
def detectChain (P : Program) (F : FunctionData) (head : BasicBlock) :
    Option (Option (Inst × List Link × BasicBlock × List Inst)) :=
  (detectFrom P F (F.layout.length + 1) head none []).map fun (x, links) =>
    if links.length < minChainLen then none
    else if (links.drop 1).any fun link => !(F.blockParams link.block).isEmpty then none
    else
      match x, links.getLast? with
      | some x, some last => some (x, links, last.next, last.nextArgs)
      | _, _ => none

/-! ## Building the tree -/

/-- `new_local_inst`, and `insert_inst` into a block. -/
def place (F : FunctionData) (bb : BasicBlock) (data : InstData) : FunctionData :=
  (F.newInst data).insertInst bb F.nextInst

/-- `new_basic_block` without parameters, and `push_bb_back`; its handle is `F.nextBlock`. -/
def addBlock (F : FunctionData) : FunctionData := (F.newBlock []).pushBlock F.nextBlock

/-- The block a node is built in: the chain head for the whole range, a new one at the end of
the layout otherwise. -/
def nodeBlock (links : List Link) (lo hi : Nat) (intoBlock : BasicBlock) (F : FunctionData) :
    FunctionData × BasicBlock :=
  if lo = 0 ∧ hi = links.length then (F, intoBlock) else (addBlock F, F.nextBlock)

/-- A node for one link: the test alone. -/
def caseNode (x : Inst) (link : Link) (default : BasicBlock × List Inst) (check : BasicBlock)
    (F : FunctionData) : FunctionData :=
  let k := F.nextInst
  let F := F.newInst ⟨.int32, .integer link.k⟩
  let eq := F.nextInst
  let F := place F check ⟨.int32, .binary .eq x k⟩
  place F check ⟨.unit, .branch eq link.handler link.handlerArgs default.1 default.2⟩

/-- A node with subtrees: the test, and the block that compares. -/
def splitNode (x : Inst) (link : Link) (left right : BasicBlock × List Inst) (check : BasicBlock)
    (F : FunctionData) : FunctionData :=
  let key := F.nextInst
  let F := F.newInst ⟨.int32, .integer link.k⟩
  let eq := F.nextInst
  let F := place F check ⟨.int32, .binary .eq x key⟩
  let split := F.nextBlock
  let F := addBlock F
  let lt := F.nextInst
  let F := place F split ⟨.int32, .binary .lt x key⟩
  let F := place F split ⟨.unit, .branch lt left.1 left.2 right.1 right.2⟩
  place F check ⟨.unit, .branch eq link.handler link.handlerArgs split []⟩

/-- Build the decision tree over the sorted links from `lo` up to `hi`; the result is the entry
block of the subtree. -/
def buildTree (x : Inst) (links : List Link) (default : BasicBlock × List Inst)
    (intoBlock : BasicBlock) (F : FunctionData) (lo hi : Nat) :
    Option (FunctionData × BasicBlock) :=
  if hi < lo then none
  else if hi - lo = 1 then
    (links[lo]?).map fun link =>
      let (F, check) := nodeBlock links lo hi intoBlock F
      (caseNode x link default check F, check)
  else
    (links[lo + (hi - lo) / 2]?).bind fun link =>
      (if lo < lo + (hi - lo) / 2 then
        (buildTree x links default intoBlock F lo (lo + (hi - lo) / 2)).map fun (F, left) =>
          (F, (left, []))
      else some (F, default)).bind fun (F, left) =>
        (if lo + (hi - lo) / 2 + 1 < hi then
          (buildTree x links default intoBlock F (lo + (hi - lo) / 2 + 1) hi).map fun (F, right) =>
            (F, (right, []))
        else some (F, default)).map fun (F, right) =>
          let (F, check) := nodeBlock links lo hi intoBlock F
          (splitNode x link left right check F, check)
termination_by hi - lo

/-- Turn the equality chain that starts at `head` into a decision tree. -/
def convertChain (P : Program) (F : FunctionData) (head : BasicBlock) :
    Option (FunctionData × Bool) :=
  (detectChain P F head).bind fun
    | none => some (F, false)
    | some (x, links, default) =>
      let sorted := links.mergeSort fun a b => a.k.sle b.k
      (F.blockInsts head).bind fun oldHeadInsts =>
        (buildTree x sorted default head F 0 sorted.length).bind fun (G, treeRoot) =>
          if treeRoot ≠ head then none
          else
            let G := oldHeadInsts.foldl (fun G inst => G.removeLayoutInst head inst) G
            some ((sorted.filter (·.block ≠ head)).foldl
              (fun G link => G.removeLayoutBasicblock link.block) G, true)

def runOn (P : Program) (F : FunctionData) : Option (FunctionData × Bool) :=
  F.blocks.foldlM (fun (F, changed) head =>
    if head ∈ F.blocks then
      (convertChain P F head).map fun (G, converted) => (G, changed || converted)
    else some (F, changed)) (F, false)

end AnonCompiler.Opt.ChainToSwitch
