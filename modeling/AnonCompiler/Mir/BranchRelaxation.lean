import AnonCompiler.Lib.Relaxation
import AnonCompiler.Mir.EmitBuffer

/-!
# Range checks and veneers

`EmitBuffer::resolve` and `insert_veneer` of `taki_mir/src/emit_buffer.rs`, with the reach
table of `emit_buffer/label.rs`.  A branch that is out of range jumps to a veneer behind it;
the veneer moves everything after it, so the check is repeated, for at most eight rounds.

The lines of a veneer are the backend's.  A panic is an error.
-/

set_option autoImplicit false

namespace AnonCompiler.Mir

open AnonCompiler.Lib

/-! ## Reach -/

namespace LabelKind

def BRANCH14 : LabelKind := ⟨2 ^ 13 * 4, 2 ^ 13 * 4⟩
def BRANCH19 : LabelKind := ⟨2 ^ 18 * 4, 2 ^ 18 * 4⟩
def BRANCH26 : LabelKind := ⟨2 ^ 25 * 4, 2 ^ 25 * 4⟩
def RV_B : LabelKind := ⟨2 ^ 12 * 2, 2 ^ 12 * 2⟩
def RV_JAL : LabelKind := ⟨2 ^ 20 * 2, 2 ^ 20 * 2⟩

/-- Whether a distance in bytes is within reach. -/
def reaches (kind : LabelKind) (distance : Int) : Bool :=
  -(kind.negative : Int) ≤ distance && distance ≤ kind.positive

def inRange (kind : LabelKind) (source target : Nat) : Bool :=
  kind.reaches ((target : Int) - source)

end LabelKind

/-- Number of instructions of a slot. -/
def slotLen : Slot → Nat
  | .veneer veneer => max veneer.lines.length 1
  | _ => 1

/-- The byte offset of every slot boundary, the end included. -/
def byteOffsetsFrom (bytes : Nat) : List Slot → List Nat
  | [] => [bytes]
  | slot :: rest => bytes :: byteOffsetsFrom (bytes + slotLen slot * 4) rest

def byteOffsets (slots : List Slot) : List Nat := byteOffsetsFrom 0 slots

/-! ## Veneers -/

inductive ResolvePanic where
  | slotIndex
  | aliasCycle
  | blockIndex
  | notABranch
  | outOfRange
deriving DecidableEq, Repr

/-- The buffer with the names of the veneers that it has. -/
structure Resolving where
  buffer : EmitBuffer
  funcName : String
  veneerNames : List String
  veneerEndNames : List String

def veneerName (funcName : String) (id : Nat) : String :=
  ".L_" ++ funcName ++ "_veneer_" ++ toString id

namespace EmitBuffer

/-- Whether the slot at `i` is a branch to a block out of its range. -/
def slotOutOfRange (b : EmitBuffer) (offsets : List Nat) (i : Nat) :
    Slot → Except ResolvePanic Bool
  | .branch branch =>
    match branch.target with
    | .block target =>
      match (b.labelOffsets target).bind fun off => offsets[off]? with
      | some bytes => .ok (!branch.kind.inRange (offsets[i]?.getD 0) bytes)
      | none => .error .slotIndex
    | _ => .ok false
  | _ => .ok false

def outOfRangeFrom (b : EmitBuffer) (offsets : List Nat) :
    Nat → List Slot → Except ResolvePanic (List Nat)
  | _, [] => .ok []
  | i, slot :: rest => do
      let far ← b.slotOutOfRange offsets i slot
      let later ← b.outOfRangeFrom offsets (i + 1) rest
      return if far then i :: later else later

/-- The slots of all branches out of range. -/
def outOfRange (b : EmitBuffer) : Except ResolvePanic (List Nat) :=
  b.outOfRangeFrom (byteOffsets b.slots) 0 b.slots

/-- `label_name` of a block. -/
def blockName (b : EmitBuffer) (target : MirBlockIndex) : Except ResolvePanic String :=
  match b.resolved target with
  | none => .error .aliasCycle
  | some root =>
    match b.blockLabels[root]? with
    | some name => .ok name
    | none => .error .blockIndex

end EmitBuffer

/-- A conditional branch is inverted, and skips its veneer. -/
def BranchRef.toVeneer (branch : BranchRef) (id : Nat) : BranchRef :=
  match branch.invPrefix with
  | some inverted => ⟨inverted, none, .veneerEnd id, branch.kind⟩
  | none => ⟨branch.prefixText, none, .veneer id, branch.kind⟩

/-- Labels after the slot `i` move by one slot. -/
def shiftLabels (offsets : MirBlockIndex → Option Nat) (i : Nat) : MirBlockIndex → Option Nat :=
  fun label => (offsets label).map fun off => if off > i then off + 1 else off

namespace Resolving

variable (veneerLines : LabelKind → String → List String)

/-- The branch at `i` jumps to a veneer behind it. -/
def withVeneer (s : Resolving) (i id : Nat) (branch : BranchRef) (targetName : String) :
    Resolving :=
  let name := veneerName s.funcName id
  { s with
    veneerNames := s.veneerNames ++ [name]
    veneerEndNames := s.veneerEndNames ++ [name ++ "_end"]
    buffer := { s.buffer with
      slots := (s.buffer.slots.set i (.branch (branch.toVeneer id))).insertIdx (i + 1)
        (.veneer ⟨name, name ++ "_end", veneerLines branch.kind targetName⟩)
      labelOffsets := shiftLabels s.buffer.labelOffsets i } }

def insertVeneer (s : Resolving) (i id : Nat) : Except ResolvePanic Resolving :=
  match s.buffer.slots[i]? with
  | some (.branch branch) =>
    match branch.target with
    | .block target => (s.buffer.blockName target).map (s.withVeneer veneerLines i id branch)
    | _ => .error .notABranch
  | _ => .error .notABranch

/-- Insertions from the end of the buffer to its beginning. -/
def insertVeneers : List Nat → Resolving × Nat → Except ResolvePanic (Resolving × Nat)
  | [], s => .ok s
  | i :: rest, (s, id) => do
      let inserted ← s.insertVeneer veneerLines i id
      insertVeneers rest (inserted, id + 1)

/-- The rounds of the relaxation. -/
def relax : Nat → Resolving × Nat → Except ResolvePanic (Resolving × Nat)
  | 0, s => .ok s
  | rounds + 1, s => do
      let far ← s.1.buffer.outOfRange
      if far = [] then return s
      else
        let inserted ← insertVeneers veneerLines far.reverse s
        relax rounds inserted

def maxRounds : Nat := 8

/-- `EmitBuffer::resolve` -/
def resolve (s : Resolving) : Except ResolvePanic Resolving := do
  let relaxed ← relax veneerLines maxRounds (s, 0)
  let far ← relaxed.1.buffer.outOfRange
  if far = [] then return relaxed.1 else .error .outOfRange

end Resolving

end AnonCompiler.Mir
