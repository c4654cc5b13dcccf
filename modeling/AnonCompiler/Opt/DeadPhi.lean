import AnonCompiler.Lib.Positions
import AnonCompiler.Opt.ForwardedParams
import AnonCompiler.Opt.Gvn
import AnonCompiler.Opt.Substitution

/-!
# Removing block parameters that are not needed

`DeadPhiElimination` of `opt/passes/dce.rs`.  Forwarded parameters are replaced by their
values everywhere.  Then a parameter that nothing uses is removed from its block, and its
arguments from the terminators that name the block.  The parameters of the entry block
stay.

`none` is a panic: an argument that is not there, a user of a block that is no terminator,
or arguments that the builder does not accept.
-/

set_option autoImplicit false

namespace AnonCompiler.Opt.DeadPhi

open Ir Lib

/-- The order in which the hash tables of a run are walked. -/
structure Order where
  /-- the forwarded parameters -/
  keys : List Inst
  /-- the parameters that are replaced -/
  resolved : List Inst
  /-- the users of a block -/
  users : List Inst → List Inst

/-- Replace the parameters one after the other. -/
def replaceAll (P : Program) (resolved : Inst → Option Inst) :
    List Inst → FunctionData → FunctionData
  | [], F => F
  | parameter :: rest, F =>
    replaceAll P resolved rest <|
      match resolved parameter with
      | some replacement => Gvn.visitAndReplace P F parameter replacement
      | none => F

/-- Nothing in the arena uses the parameter at the position. -/
def isUnused (F : FunctionData) (bb : BasicBlock) (index : Nat) : Bool :=
  match (F.blockParams bb)[index]? with
  | some param => F.usedBy param = []
  | none => false

/-- The positions of the unused parameters, from the back to the front. -/
def unusedParams (F : FunctionData) (bb : BasicBlock) : List Nat :=
  if F.entryBlock = some bb then []
  else ((List.range (F.blockParams bb).length).filter (isUnused F bb)).reverse

/-- One arm of a terminator. -/
def trimArm (bb : BasicBlock) (indices : List Nat) (target : BasicBlock) (args : List Inst) :
    Option (List Inst) :=
  if bb = target then removeAt indices args else some args

/-- The arguments that a terminator passes to the block are removed; the arms of a branch are
trimmed independently. -/
def trimKind (bb : BasicBlock) (indices : List Nat) : InstKind → Option InstKind
  | .jump target args => (removeAt indices args).map (.jump target)
  | .branch cond tTarget tArgs fTarget fArgs => do
      let tArgs ← trimArm bb indices tTarget tArgs
      let fArgs ← trimArm bb indices fTarget fArgs
      some (.branch cond tTarget tArgs fTarget fArgs)
  | _ => none

def argsFit (P : Program) (F : FunctionData) (target : BasicBlock) (args : List Inst) : Bool :=
  args.map (P.typeOf F) = (F.blockParams target).map (P.typeOf F)

/-- What the builder asserts of a jump and a branch. -/
def accepts (P : Program) (F : FunctionData) : InstKind → Bool
  | .jump target args => argsFit P F target args
  | .branch _ tTarget tArgs fTarget fArgs => argsFit P F tTarget tArgs && argsFit P F fTarget fArgs
  | _ => true

def trimTerminator (P : Program) (bb : BasicBlock) (indices : List Nat) (F : FunctionData)
    (inst : Inst) : Option FunctionData := do
  let data ← F.insts inst
  let kind ← trimKind bb indices data.kind
  if accepts P F kind then some (F.replaceInst inst { data with kind }) else none

/-- Remove the parameters at the positions, and their arguments from the users in the layout. -/
def trimBlock (P : Program) (order : Order) (F : FunctionData) (block : BasicBlock × List Nat) :
    Option FunctionData :=
  if block.2 = [] then some F
  else do
    let params ← removeAt block.2 (F.blockParams block.1)
    let F := { F with blockParams := Function.update F.blockParams block.1 params }
    let users := (order.users (F.bbUsedBy block.1)).filter fun inst => (F.parentBlock inst).isSome
    users.foldlM (trimTerminator P block.1 block.2) F

/-- The function after the pass, and whether it has changed. -/
def runOn (P : Program) (order : Order) (F : FunctionData) : Option (FunctionData × Bool) := do
  let resolved ← resolveForwardedParams (forwardedBlockParams F) order.keys
  let F := replaceAll P resolved order.resolved F
  let unused := F.blocks.map fun bb => (bb, unusedParams F bb)
  let F ← unused.foldlM (trimBlock P order) F
  some (F, order.resolved ≠ [] || unused.any (·.2 ≠ []))

/-- The tables are walked over all of their entries. -/
structure Order.Walks (order : Order) (F : FunctionData) : Prop where
  keys : IsKeyOrder (forwardedBlockParams F) order.keys
  resolved : ∀ {resolved}, resolveForwardedParams (forwardedBlockParams F) order.keys =
    some resolved →
    ∀ p, p ∈ order.resolved ↔ (resolved p).isSome
  users : ∀ users, (order.users users).Perm users

/-- The builder accepts every terminator of the layout. -/
def Accepted (P : Program) (F : FunctionData) : Prop :=
  ∀ {inst data}, inst ∈ F.layoutInsts → F.insts inst = some data → accepts P F data.kind

theorem typeOf_congr {P : Program} {F G : FunctionData}
    (same : ∀ x, (G.insts x).map InstData.ty = (F.insts x).map InstData.ty) :
    P.typeOf G = P.typeOf F := by
  funext x
  unfold Program.typeOf Program.instData
  split
  · rfl
  · exact same x

end AnonCompiler.Opt.DeadPhi
