import Mathlib.Data.List.Basic
import Mathlib.Logic.Function.Basic

/-!
# The emission buffer

The text-level instruction buffer of `taki_mir/src/emit_buffer.rs`.  Every slot
is one machine instruction.  Ordinary instructions accumulate text until
`endInst` flushes it, branches are structured slots whose target stays a block
label, and labels are bound to slot offsets.

With branch optimisation enabled, `optimizeBranches` edits the branches at the
tail of the buffer: it drops a branch to the tail itself, threads the labels
bound at an unconditional branch to the branch's target, drops an
unconditional branch no label and no fallthrough reaches, and inverts a
conditional branch over an unconditional one.

A computation that panics in the source is `none` here.  The vector of recorded
branches is kept with its last element first, and `usize::MAX`, the offset of a
label not yet bound, is `none`.
-/

set_option autoImplicit false

namespace AnonCompiler.Mir

/-- Index of a lowered block; block labels are named by it. -/
abbrev MirBlockIndex := Nat

/-- Signed branch reach in bytes. -/
structure LabelKind where
  positive : Nat
  negative : Nat
deriving DecidableEq, Repr

/-- A branch target: a block of the function or a label of a veneer. -/
inductive LabelRef where
  | block (block : MirBlockIndex)
  | veneer (id : Nat)
  | veneerEnd (id : Nat)
deriving DecidableEq, Repr

/-- A branch: the text before the target label, and the text of the branch with
the opposite condition, absent for an unconditional branch. -/
structure BranchRef where
  prefixText : String
  invPrefix : Option String
  target : LabelRef
  kind : LabelKind
deriving DecidableEq, Repr

/-- A labelled sequence of lines inserted for a branch out of range. -/
structure VeneerRec where
  name : String
  endName : String
  lines : List String
deriving DecidableEq, Repr

/-- One emitted instruction slot. -/
inductive Slot where
  | text (text : String)
  | branch (branch : BranchRef)
  | veneer (veneer : VeneerRec)
deriving DecidableEq, Repr

/-- A branch at the tail, with the labels bound at its slot. -/
structure BranchRec where
  start : Nat
  labelsAtThisBranch : List MirBlockIndex
deriving DecidableEq, Repr

/-- Bound on the labels of one branch record beyond which it is left alone. -/
def labelListThreshold : Nat := 100

structure EmitBuffer where
  slots : List Slot
  pending : String
  blockLabels : List String
  labelOffsets : MirBlockIndex → Option Nat
  labelAliases : MirBlockIndex → Option MirBlockIndex
  latestBranches : List BranchRec
  labelsAtTail : List MirBlockIndex
  labelsAtTailOff : Nat
  enableBranchOpt : Bool

/-- Follow label aliases; the loop of the source runs a bounded number of times
and panics when it has not met an unaliased label by then. -/
def aliasRoot (aliases : MirBlockIndex → Option MirBlockIndex) :
    Nat → MirBlockIndex → Option MirBlockIndex
  | 0, _ => none
  | fuel + 1, label =>
    match aliases label with
    | some next => aliasRoot aliases fuel next
    | none => some label

/-- The branch with the opposite condition, sent to `target`. -/
def BranchRef.inverted (branch : BranchRef) (inverted : String) (target : LabelRef) : BranchRef :=
  { branch with
    prefixText := inverted
    invPrefix := some branch.prefixText
    target := target }

namespace EmitBuffer

def new (blockLabels : List String) (enableBranchOpt : Bool) : EmitBuffer where
  slots := []
  pending := ""
  blockLabels := blockLabels
  labelOffsets := fun _ => none
  labelAliases := fun _ => none
  latestBranches := []
  labelsAtTail := []
  labelsAtTailOff := 0
  enableBranchOpt := enableBranchOpt

/-- Resolve a label through the alias chain. -/
def resolved (b : EmitBuffer) (label : MirBlockIndex) : Option MirBlockIndex :=
  aliasRoot b.labelAliases (b.blockLabels.length + 1) label

/-- The slot offset of a label after alias resolution, `some none` when the
label is not yet bound. -/
def resolveLabelOffset (b : EmitBuffer) (label : MirBlockIndex) : Option (Option Nat) :=
  (b.resolved label).map b.labelOffsets

/-- Clear the tail labels when the tail has moved past the offset they apply to. -/
def lazilyClearLabelsAtTail (b : EmitBuffer) : EmitBuffer :=
  if b.slots.length > b.labelsAtTailOff then
    { b with labelsAtTailOff := b.slots.length, labelsAtTail := [] }
  else b

/-- Give every label of `labels` the offset `off`. -/
def moveLabels (offsets : MirBlockIndex → Option Nat) (labels : List MirBlockIndex) (off : Nat) :
    MirBlockIndex → Option Nat :=
  fun label => if label ∈ labels then some off else offsets label

/-- Remove the last branch; the labels of the former tail move back to its slot
and join the labels bound there. -/
def truncateLastBranch (b : EmitBuffer) : Option EmitBuffer :=
  let b := b.lazilyClearLabelsAtTail
  match b.latestBranches with
  | [] => none
  | last :: earlier =>
    some { b with
      slots := b.slots.take last.start
      latestBranches := earlier
      labelsAtTailOff := last.start
      labelOffsets := moveLabels b.labelOffsets b.labelsAtTail last.start
      labelsAtTail := b.labelsAtTail ++ last.labelsAtThisBranch }

/-- Alias every label of `labels` to `target`. -/
def aliasLabels (aliases : MirBlockIndex → Option MirBlockIndex) (labels : List MirBlockIndex)
    (target : MirBlockIndex) : MirBlockIndex → Option MirBlockIndex :=
  fun label => if label ∈ labels then some target else aliases label

/-- Redirect the labels bound at the last branch to its target. -/
def threadLabels (b : EmitBuffer) (last : BranchRec) (earlier : List BranchRec)
    (target : MirBlockIndex) : EmitBuffer :=
  { b with
    labelAliases := aliasLabels b.labelAliases last.labelsAtThisBranch target
    latestBranches := { last with labelsAtThisBranch := [] } :: earlier }

/-- Overwrite one slot. -/
def setSlot (b : EmitBuffer) (index : Nat) (slot : Slot) : EmitBuffer :=
  { b with slots := b.slots.set index slot }

/-- What one turn of the loop of `optimizeBranches` does: leave the loop, or go
on with an edited buffer. -/
inductive Turn where
  | leave
  | again (b : EmitBuffer)

/-- The rules for an unconditional branch at the tail that has a recorded
branch before it: remove it when it is dead, or invert the conditional branch
that jumps over it. -/
def unconditionalTurn (b : EmitBuffer) (last prev : BranchRec) (branch : BranchRef) :
    Option Turn :=
  match b.slots[prev.start]? with
  | some (.branch prevBranch) =>
    if prev.start + 1 = last.start then
      match prevBranch.invPrefix with
      | none => b.truncateLastBranch.map .again
      | some inverted =>
        match prevBranch.target with
        | .block prevTarget =>
          match b.resolveLabelOffset prevTarget with
          | none => none
          | some prevOff =>
            if prevOff = some b.slots.length then
              b.truncateLastBranch.map fun t =>
                .again (t.setSlot prev.start (.branch (prevBranch.inverted inverted branch.target)))
            else some .leave
        | _ => none
    else some .leave
  | _ => none

/-- One turn of the loop of `optimizeBranches`. -/
def optimizeTurn (b : EmitBuffer) : Option Turn :=
  match b.latestBranches with
  | [] => some .leave
  | last :: earlier =>
    if last.start + 1 < b.slots.length then some .leave
    else if last.labelsAtThisBranch.length > labelListThreshold then some .leave
    else
      match b.slots[last.start]? with
      | some (.branch branch) =>
        match branch.target with
        | .block target =>
          match b.resolveLabelOffset target with
          | none => none
          | some targetOff =>
            if targetOff = some b.slots.length then b.truncateLastBranch.map .again
            else
              match branch.invPrefix with
              | some _ => some .leave
              | none =>
                if targetOff = some last.start then some .leave
                else if last.labelsAtThisBranch = [] then
                  match earlier with
                  | [] => some .leave
                  | prev :: _ => b.unconditionalTurn last prev branch
                else some (.again (b.threadLabels last earlier target))
        | _ => none
      | _ => none

/-- The loop of `optimizeBranches`, for at most the given number of turns. -/
def optimizeLoop : Nat → EmitBuffer → Option EmitBuffer
  | 0, b => some b
  | turns + 1, b =>
    match b.optimizeTurn with
    | none => none
    | some .leave => some b
    | some (.again next) => optimizeLoop turns next

/-- Drop all branch records once the tail has moved past the last one. -/
def purgeLatestBranches (b : EmitBuffer) : EmitBuffer :=
  match b.latestBranches with
  | [] => b
  | last :: _ => if last.start + 1 < b.slots.length then { b with latestBranches := [] } else b

/-- A recorded branch is visited at most twice: once to thread its labels and
once to remove it. -/
def turnBound (b : EmitBuffer) : Nat := 2 * b.latestBranches.length + 1

def optimizeBranches (b : EmitBuffer) : Option EmitBuffer :=
  if b.enableBranchOpt then (optimizeLoop b.turnBound b).map purgeLatestBranches
  else some b.lazilyClearLabelsAtTail

/-- Bind a block label to the current position. -/
def bindLabel (b : EmitBuffer) (block : MirBlockIndex) : Option EmitBuffer :=
  let bound := { b with labelOffsets := Function.update b.labelOffsets block (some b.slots.length) }
  let cleared := bound.lazilyClearLabelsAtTail
  optimizeBranches { cleared with labelsAtTail := cleared.labelsAtTail ++ [block] }

/-- Append text to the pending instruction. -/
def writeStr (b : EmitBuffer) (text : String) : EmitBuffer :=
  { b with pending := b.pending ++ text }

/-- Flush the pending text as one slot. -/
def endInst (b : EmitBuffer) : EmitBuffer :=
  if b.pending = "" then b
  else { b with pending := "", slots := b.slots ++ [.text b.pending] }

def putBranch (b : EmitBuffer) (prefixText : String) (invPrefix : Option String)
    (target : MirBlockIndex) (kind : LabelKind) : EmitBuffer :=
  let b := b.lazilyClearLabelsAtTail
  { b with
    latestBranches := ⟨b.slots.length, b.labelsAtTail⟩ :: b.latestBranches
    slots := b.slots ++ [.branch ⟨prefixText, invPrefix, .block target, kind⟩] }

def putUncondBranch (b : EmitBuffer) (prefixText : String) (target : MirBlockIndex)
    (kind : LabelKind) : EmitBuffer :=
  b.putBranch prefixText none target kind

end EmitBuffer

/-- The calls by which a function is emitted. -/
inductive EmitCall where
  | bindLabel (block : MirBlockIndex)
  | writeStr (text : String)
  | endInst
  | putBranch (prefixText inverted : String) (target : MirBlockIndex) (kind : LabelKind)
  | putUncondBranch (prefixText : String) (target : MirBlockIndex) (kind : LabelKind)

namespace EmitBuffer

def call (b : EmitBuffer) : EmitCall → Option EmitBuffer
  | .bindLabel block => b.bindLabel block
  | .writeStr text => some (b.writeStr text)
  | .endInst => some b.endInst
  | .putBranch prefixText inverted target kind =>
    some (b.putBranch prefixText (some inverted) target kind)
  | .putUncondBranch prefixText target kind => some (b.putUncondBranch prefixText target kind)

def calls (b : EmitBuffer) : List EmitCall → Option EmitBuffer
  | [] => some b
  | first :: rest => (b.call first).bind fun next => next.calls rest

/-- Emit a function: all calls, then one last `optimizeBranches`. -/
def emit (blockLabels : List String) (enableBranchOpt : Bool) (sequence : List EmitCall) :
    Option EmitBuffer :=
  ((new blockLabels enableBranchOpt).calls sequence).bind optimizeBranches

/-! ## The loop of `optimizeBranches` ends by itself -/

variable {b t : EmitBuffer} {last : BranchRec}

theorem lazilyClear_latestBranches (b : EmitBuffer) :
    b.lazilyClearLabelsAtTail.latestBranches = b.latestBranches := by
  unfold lazilyClearLabelsAtTail
  split <;> rfl

/-- The edits a turn makes, each with the tests that lead to it. -/
inductive Edit (b : EmitBuffer) : EmitBuffer → Prop where
  | fallthrough {last : BranchRec} {earlier : List BranchRec} {branch : BranchRef}
      {target : MirBlockIndex} {t : EmitBuffer}
      (latest : b.latestBranches = last :: earlier)
      (atTail : ¬ last.start + 1 < b.slots.length)
      (slot : b.slots[last.start]? = some (.branch branch))
      (block : branch.target = .block target)
      (offset : b.resolveLabelOffset target = some (some b.slots.length))
      (cut : b.truncateLastBranch = some t) : Edit b t
  | thread {last : BranchRec} {earlier : List BranchRec} {branch : BranchRef}
      {target : MirBlockIndex} {targetOff : Option Nat}
      (latest : b.latestBranches = last :: earlier)
      (slot : b.slots[last.start]? = some (.branch branch))
      (block : branch.target = .block target)
      (unconditional : branch.invPrefix = none)
      (offset : b.resolveLabelOffset target = some targetOff)
      (elsewhere : targetOff ≠ some last.start)
      (labelled : last.labelsAtThisBranch ≠ []) : Edit b (b.threadLabels last earlier target)
  | dead {last prev : BranchRec} {earlier : List BranchRec} {branch prevBranch : BranchRef}
      {t : EmitBuffer}
      (latest : b.latestBranches = last :: prev :: earlier)
      (atTail : ¬ last.start + 1 < b.slots.length)
      (slot : b.slots[last.start]? = some (.branch branch))
      (unconditional : branch.invPrefix = none)
      (unlabelled : last.labelsAtThisBranch = [])
      (prevSlot : b.slots[prev.start]? = some (.branch prevBranch))
      (adjacent : prev.start + 1 = last.start)
      (prevUnconditional : prevBranch.invPrefix = none)
      (cut : b.truncateLastBranch = some t) : Edit b t
  | invert {last prev : BranchRec} {earlier : List BranchRec} {branch prevBranch : BranchRef}
      {target prevTarget : MirBlockIndex} {inverted : String} {t : EmitBuffer}
      (latest : b.latestBranches = last :: prev :: earlier)
      (atTail : ¬ last.start + 1 < b.slots.length)
      (slot : b.slots[last.start]? = some (.branch branch))
      (block : branch.target = .block target)
      (unconditional : branch.invPrefix = none)
      (unlabelled : last.labelsAtThisBranch = [])
      (prevSlot : b.slots[prev.start]? = some (.branch prevBranch))
      (adjacent : prev.start + 1 = last.start)
      (prevConditional : prevBranch.invPrefix = some inverted)
      (prevBlock : prevBranch.target = .block prevTarget)
      (prevOffset : b.resolveLabelOffset prevTarget = some (some b.slots.length))
      (cut : b.truncateLastBranch = some t) :
      Edit b (t.setSlot prev.start (.branch (prevBranch.inverted inverted branch.target)))

theorem unconditionalTurn_edit {prev : BranchRec} {earlier : List BranchRec} {branch : BranchRef}
    {target : MirBlockIndex} (latest : b.latestBranches = last :: prev :: earlier)
    (atTail : ¬ last.start + 1 < b.slots.length)
    (slot : b.slots[last.start]? = some (.branch branch)) (block : branch.target = .block target)
    (unconditional : branch.invPrefix = none) (unlabelled : last.labelsAtThisBranch = [])
    (h : b.unconditionalTurn last prev branch = some (.again t)) : Edit b t := by
  unfold unconditionalTurn at h
  split at h
  case h_2 => cases h
  case h_1 prevBranch prevSlot =>
    split at h
    case isFalse => cases h
    case isTrue adjacent =>
      split at h
      case h_1 prevUnconditional =>
        simp only [Option.map_eq_some_iff, Turn.again.injEq] at h
        obtain ⟨t', cut, rfl⟩ := h
        exact .dead latest atTail slot unconditional unlabelled prevSlot adjacent
          prevUnconditional cut
      case h_2 inverted prevConditional =>
        split at h
        case h_2 => cases h
        case h_1 prevTarget prevBlock =>
          split at h
          case h_1 => cases h
          case h_2 prevOff prevOffset =>
            split at h
            case isFalse => cases h
            case isTrue atEnd =>
              simp only [Option.map_eq_some_iff, Turn.again.injEq] at h
              obtain ⟨t', cut, rfl⟩ := h
              exact .invert latest atTail slot block unconditional unlabelled prevSlot adjacent
                prevConditional prevBlock (atEnd ▸ prevOffset) cut

/-- A turn that goes on makes one of the edits. -/
theorem optimizeTurn_edit (h : b.optimizeTurn = some (.again t)) : Edit b t := by
  unfold optimizeTurn at h
  split at h
  case h_1 => cases h
  case h_2 last earlier latest =>
    split at h
    case isTrue => cases h
    case isFalse atTail =>
      split at h
      case isTrue => cases h
      case isFalse =>
        split at h
        case h_2 => cases h
        case h_1 branch slot =>
          split at h
          case h_2 => cases h
          case h_1 target block =>
            split at h
            case h_1 => cases h
            case h_2 targetOff offset =>
              split at h
              case isTrue atEnd =>
                simp only [Option.map_eq_some_iff, Turn.again.injEq] at h
                obtain ⟨t', cut, rfl⟩ := h
                exact .fallthrough latest atTail slot block (atEnd ▸ offset) cut
              case isFalse =>
                split at h
                case h_1 => cases h
                case h_2 unconditional =>
                  split at h
                  case isTrue => cases h
                  case isFalse elsewhere =>
                    split at h
                    case isTrue unlabelled =>
                      cases earlier with
                      | nil => cases h
                      | cons prev earlier =>
                        exact unconditionalTurn_edit latest atTail slot block unconditional
                          unlabelled h
                    case isFalse labelled =>
                      obtain rfl := Turn.again.inj (Option.some.inj h)
                      exact .thread latest slot block unconditional offset elsewhere labelled

end EmitBuffer

end AnonCompiler.Mir
