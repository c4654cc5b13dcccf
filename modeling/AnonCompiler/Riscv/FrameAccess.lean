import AnonCompiler.Riscv.FrameCode

/-!
# What spills and frame addresses do

An item asks for an access: a move between registers, a load or a store at an offset from
the stack pointer, a copy from slot to slot, or an address.  The code for it does the same
but for the two scratch registers.  Nothing lives in x30; x31 is where the allocator keeps a
value between two of its moves, and a later item may still need it.

Where the offset is out of range the code computes the address in x31, so the value that
was there is gone: it must not be needed, and not be what is stored.
-/

set_option autoImplicit false

namespace AnonCompiler.Riscv

open Mir (Bytes Value)

/-! ## Accesses -/

/-- What an item asks for; offsets are from the stack pointer. -/
inductive Access where
  | move (src dst : PReg)
  | store (src : PReg) (op : StoreOP) (offset : Int)
  | load (dst : PReg) (op : LoadOP) (offset : Int)
  | copy (src dst : Int)
  | address (dst : PReg) (offset : Int)
deriving DecidableEq, Repr

/-- `none` for a slot outside the spill region, and for other instructions. -/
def Item.access (frame : FrameLayout) : Item → Option Access
  | .edit ⟨.reg src, .reg dst, _⟩ => some (.move src dst)
  | .edit ⟨.reg src, .stack slot, cls⟩ =>
    (frame.spillSlotOffset slot).map fun offset => .store src (.ofType cls.spillType) offset
  | .edit ⟨.stack slot, .reg dst, cls⟩ =>
    (frame.spillSlotOffset slot).map fun offset => .load dst (.ofType cls.spillType) offset
  | .edit ⟨.stack src, .stack dst, _⟩ =>
    (frame.spillSlotOffset src).bind fun srcOffset =>
      (frame.spillSlotOffset dst).map fun dstOffset => .copy srcOffset dstOffset
  | .inst (.stackAddr rd (.slotOffset offset)) =>
    some (.address rd (offset + frame.outgoingArgsSize))
  | .inst (.loadWord rd op (.slotOffset offset)) =>
    some (.load rd op (offset + frame.outgoingArgsSize))
  | .inst (.storeWord rs op (.slotOffset offset)) =>
    some (.store rs op (offset + frame.outgoingArgsSize))
  | .inst _ => none

namespace Access

/-- Exactly the source goes to the destination. -/
def meaning (m : Machine) : Access → Machine
  | .move src dst => m.set dst (m.get src)
  | .store src op offset => m.write (m.sp + BitVec.ofInt 64 offset) op (m.get src)
  | .load dst op offset => m.set dst (op.eval m.mem (m.sp + BitVec.ofInt 64 offset))
  | .copy src dst =>
    m.write (m.sp + BitVec.ofInt 64 dst) .sd
      (LoadOP.ld.eval m.mem (m.sp + BitVec.ofInt 64 src))
  | .address dst offset => m.set dst (m.sp + BitVec.ofInt 64 offset)

def src : Access → Option PReg
  | .move src _ | .store src _ _ => some src
  | _ => none

def dst : Access → Option PReg
  | .move _ dst | .load dst _ _ | .address dst _ => some dst
  | _ => none

/-- The code of the items with this access. -/
def code : Access → List MInst
  | .move src dst => [.mov src dst]
  | .store src op offset =>
    (AMode.spOffset offset).normalizeImm12.2 ++
      [.storeWord src op (AMode.spOffset offset).normalizeImm12.1]
  | .load dst op offset =>
    (AMode.spOffset offset).normalizeImm12.2 ++
      [.loadWord dst op (AMode.spOffset offset).normalizeImm12.1]
  | .copy src dst => genSpillLoad src spilltmpReg .i64 ++ genSpillStore spilltmpReg dst .i64
  | .address dst offset => legalizeInst ⟨0, 0, 0⟩ (.stackAddr dst (.slotOffset offset))

/-- The registers are ones the allocator uses. -/
def Usable (access : Access) : Prop := ∀ r, access.src = some r ∨ access.dst = some r → r ∈ usable

end Access

/-- The registers of an item are the allocator's, of the right class. -/
def Allocation.Fits (cls : RegClass) : Allocation → Prop
  | .reg preg => preg ∈ usable ∧ preg.cls = cls
  | .stack _ => True

def LoadOP.cls : LoadOP → RegClass
  | .lw | .ld => .int
  | .flw => .float

def StoreOP.cls : StoreOP → RegClass
  | .sw | .sd => .int
  | .fsw => .float

/-- An edit, or a frame pseudo instruction. -/
def Item.Valid : Item → Prop
  | .edit moved => moved.src.Fits moved.cls ∧ moved.dst.Fits moved.cls
  | .inst (.stackAddr rd (.slotOffset _)) => rd ∈ usable ∧ rd.cls = .int
  | .inst (.loadWord rd op (.slotOffset _)) => rd ∈ usable ∧ rd.cls = op.cls
  | .inst (.storeWord rs op (.slotOffset _)) => rs ∈ usable ∧ rs.cls = op.cls
  | .inst _ => False

/-! ### The code of an item is that of its access -/

theorem legalizeSlotAMode_eq (frame : FrameLayout) (offset : Int) :
    legalizeSlotAMode frame offset =
      (AMode.spOffset (offset + frame.outgoingArgsSize)).normalizeImm12 := by
  unfold legalizeSlotAMode AMode.normalizeImm12 Imm12.fromI32
  by_cases near : InRange12 (offset + frame.outgoingArgsSize)
  · simp [AMode.offsetAndBase, near]
  · simp [AMode.offsetAndBase, near]

/-- Spills are addressed relative to the stack pointer already. -/
theorem flatMap_legalizeInst {frame : FrameLayout} {insts : List MInst}
    (settled : ∀ inst ∈ insts, legalizeInst frame inst = [inst]) :
    insts.flatMap (legalizeInst frame) = insts := by
  induction insts with
  | nil => rfl
  | cons inst insts ih =>
    rw [List.flatMap_cons, settled inst List.mem_cons_self,
      ih fun i member => settled i (List.mem_cons_of_mem _ member), List.singleton_append]

theorem legalizeInst_spill (frame : FrameLayout) (offset : Int) {last : AMode → MInst}
    (isAccess : (∃ rs op, last = .storeWord rs op) ∨ ∃ rd op, last = .loadWord rd op) :
    ∀ inst ∈ (AMode.spOffset offset).normalizeImm12.2 ++
        [last (AMode.spOffset offset).normalizeImm12.1], legalizeInst frame inst = [inst] := by
  unfold AMode.normalizeImm12
  by_cases near : InRange12 offset
  · obtain ⟨rs, op, rfl⟩ | ⟨rd, op, rfl⟩ := isAccess <;>
      simp [AMode.offsetAndBase, near, legalizeInst]
  · obtain ⟨rs, op, rfl⟩ | ⟨rd, op, rfl⟩ := isAccess <;>
      simp [AMode.offsetAndBase, near, legalizeInst]

theorem Item.expand_eq {frame : FrameLayout} {item : Item} (valid : item.Valid) :
    item.expand frame = (item.access frame).map Access.code := by
  cases item with
  | inst pseudo =>
    cases pseudo with
    | stackAddr rd addr =>
      cases addr with
      | slotOffset offset => simp [expand, access, Access.code, legalizeInst]
      | _ => exact valid.elim
    | loadWord _ _ addr | storeWord _ _ addr =>
      cases addr with
      | slotOffset offset =>
        simp [expand, access, Access.code, legalizeInst, legalizeSlotAMode_eq]
      | _ => exact valid.elim
    | _ => exact valid.elim
  | edit moved =>
    obtain ⟨src, dst, cls⟩ := moved
    cases src with
    | reg src =>
      cases dst with
      | reg dst => rfl
      | stack slot =>
        cases offset : frame.spillSlotOffset slot with
        | none => simp [expand, access, Edit.insts, offset]
        | some offset' =>
          simp only [expand, access, Edit.insts, offset, Option.bind_eq_bind, Option.bind_some,
            Option.map_some, Access.code]
          exact congrArg some
            (flatMap_legalizeInst (legalizeInst_spill frame _ (.inl ⟨_, _, rfl⟩)))
    | stack src =>
      cases dst with
      | reg dst =>
        cases offset : frame.spillSlotOffset src with
        | none => simp [expand, access, Edit.insts, offset]
        | some offset' =>
          simp only [expand, access, Edit.insts, offset, Option.bind_eq_bind, Option.bind_some,
            Option.map_some, Access.code]
          exact congrArg some
            (flatMap_legalizeInst (legalizeInst_spill frame _ (.inr ⟨_, _, rfl⟩)))
      | stack dst =>
        cases atSrc : frame.spillSlotOffset src with
        | none => simp [expand, access, Edit.insts, atSrc]
        | some srcOffset =>
          cases atDst : frame.spillSlotOffset dst with
          | none => simp [expand, access, Edit.insts, atSrc, atDst]
          | some dstOffset =>
            simp only [expand, access, Edit.insts, atSrc, atDst, Option.bind_eq_bind,
              Option.bind_some, Option.map_some, Access.code]
            refine congrArg some (flatMap_legalizeInst fun inst member => ?_)
            rcases List.mem_append.mp member with first | second
            · exact legalizeInst_spill frame srcOffset (.inr ⟨_, _, rfl⟩) inst first
            · exact legalizeInst_spill frame dstOffset (.inl ⟨_, _, rfl⟩) inst second

end AnonCompiler.Riscv
