import AnonCompiler.Mir.ConstantPlan

/-!
# Addresses in the frame

After register allocation `legalize_inst` of `anon_armv8/src/abi.rs` turns the addresses
relative to the frame into addresses that an instruction can hold.  Offsets are `i64`; an
offset that no form can hold is put together in scratch registers.  `none` is a failed
`expect`, or a sum that overflows where overflow is checked.

Every instruction has its architectural meaning.  A frame address has a meaning of its own,
which the legalized code is compared with.
-/

set_option autoImplicit false

namespace AnonCompiler.Mir

/-! ## Instructions -/

inductive MemoryType where
  | i32
  | i64
  | f32
  | f64
  | vec128
deriving DecidableEq, Repr

def MemoryType.byteSize : MemoryType → Nat
  | .i32 | .f32 => 4
  | .i64 | .f64 => 8
  | .vec128 => 16

inductive ExtendOp where
  | uxtb
  | uxth
  | uxtw
  | uxtx
  | sxtb
  | sxth
  | sxtw
  | sxtx
deriving DecidableEq, Repr

/-- An unsigned offset in units of the access. -/
structure UImm12Scaled where
  value : Nat
  accessSize : Nat
  valid : value ≤ 0xfff ∧ accessSize ∈ [4, 8, 16]
deriving DecidableEq, Repr

def UImm12Scaled.new (value : BitVec 64) (accessSize : Nat) : Option UImm12Scaled :=
  if h : value.toNat / accessSize ≤ 0xfff ∧ accessSize ∈ [4, 8, 16] then
    if value.toNat % accessSize = 0 then some ⟨value.toNat / accessSize, accessSize, h⟩ else none
  else none

def UImm12Scaled.byteOffset (offset : UImm12Scaled) : BitVec 64 :=
  BitVec.ofNat 64 (offset.value * offset.accessSize)

structure SImm9 where
  value : BitVec 16
  valid : -256 ≤ value.toInt ∧ value.toInt ≤ 255
deriving DecidableEq, Repr

def SImm9.new (value : BitVec 16) : Option SImm9 :=
  if h : -256 ≤ value.toInt ∧ value.toInt ≤ 255 then some ⟨value, h⟩ else none

def Imm12.maybeFromU64 (val : BitVec 64) : Option Imm12 :=
  if h : val.toNat ≤ 0xfff then some ⟨val.toNat, false, h⟩
  else if h : val.toNat / 4096 ≤ 0xfff then
    if val.toNat % 4096 = 0 then some ⟨val.toNat / 4096, true, h⟩ else none
  else none

inductive AMode where
  | reg (base : Reg)
  | unsignedOffset (base : Reg) (offset : UImm12Scaled)
  | signedOffset (base : Reg) (offset : SImm9)
  | regOffset (base index : Reg)
  | scaledRegOffset (base index : Reg) (shift : Nat)
  | extendedRegOffset (base index : Reg) (extend : ExtendOp) (shift : Nat)
  | frameSlot (offset : BitVec 64)
  | spOffset (offset : BitVec 64)
  | incomingArg (offset : BitVec 64)
  | outgoingArg (offset : BitVec 64)
deriving DecidableEq, Repr

/-- The instructions that legalization reads or makes; it leaves the others as they are.
`constant` is the form that a step of the plan of a constant stands for. -/
inductive FrameInst where
  | stackAddr (dst : Reg) (addr : AMode)
  | load (ty : MemoryType) (dst : Reg) (addr : AMode)
  | store (ty : MemoryType) (src : Reg) (addr : AMode)
  | aluRRR (op : AluOp) (size : OperandSize) (dst : Reg) (lhs rhs : RegOrZr)
  | aluRRImm12 (op : AluOp) (size : OperandSize) (dst src : Reg) (imm : Imm12)
  | movPhys (size : OperandSize) (dst src : Reg)
  | constant (size : OperandSize) (dst : Reg) (step : ConstantStep)
  | other (op : Nat)
deriving DecidableEq, Repr

def intReg (index : Nat) : Reg := ⟨index, .int⟩

/-- The encoding 31 of a position that takes the stack pointer. -/
def stackReg : Reg := ⟨63, .int⟩

def fp : Nat := 29

def intPostRaScratch : List Nat := [14, 15, 16, 17]

/-! ## The code -/

/-- `i64::from(outgoing_args_size) + offset`. -/
def slotOffset (checks : Bool) (outgoingArgsSize : BitVec 32) (offset : BitVec 64) :
    Option (BitVec 64) :=
  let sum := outgoingArgsSize.setWidth 64 + offset
  if checks ∧ sum.toInt ≠ outgoingArgsSize.toNat + offset.toInt then none else some sum

/-- One instruction for each step of the plan. -/
def materializeIntegerConstant (value : BitVec 64) (size : OperandSize) (dst : Reg) :
    Option (List FrameInst) :=
  (planIntegerConstant value size).map fun plan => plan.map (.constant size dst)

/-- The base and the offset of a frame address. -/
def frameBase (checks : Bool) (outgoingArgsSize : BitVec 32) :
    AMode → Option (Option (Reg × BitVec 64))
  | .frameSlot offset =>
    (slotOffset checks outgoingArgsSize offset).map fun offset => some (stackReg, offset)
  | .spOffset offset | .outgoingArg offset => some (some (stackReg, offset))
  | .incomingArg offset => some (some (intReg fp, offset))
  | _ => some none

/-- The forms that hold the offset. -/
def directAMode (base : Reg) (offset : BitVec 64) (ty : MemoryType) : Option AMode :=
  let scaled := if 0 ≤ offset.toInt then UImm12Scaled.new offset ty.byteSize else none
  let unscaled := if -256 ≤ offset.toInt ∧ offset.toInt ≤ 255 then SImm9.new (offset.setWidth 16)
    else none
  (scaled.map (.unsignedOffset base)).or (unscaled.map (.signedOffset base))

/-- The address in two scratch registers, neither of them the register that is stored. -/
def scratchAMode (base : Reg) (offset : BitVec 64) (storeSrc : Option Reg) :
    Option (AMode × List FrameInst) :=
  match (intPostRaScratch.map intReg).filter fun scratch => some scratch ≠ storeSrc with
  | address :: offsetReg :: _ => do
      let insts ← materializeIntegerConstant offset .size64 offsetReg
      let (copy, base) := if base = stackReg then ([.movPhys .size64 address stackReg], address)
        else ([], base)
      let add := .aluRRR .add .size64 address (.reg base) (.reg offsetReg)
      some (.reg address, insts ++ copy ++ [add])
  | _ => none

def legalizeAMode (checks : Bool) (outgoingArgsSize : BitVec 32) (addr : AMode) (ty : MemoryType)
    (storeSrc : Option Reg) : Option (AMode × List FrameInst) := do
  match ← frameBase checks outgoingArgsSize addr with
  | none => some (addr, [])
  | some (base, offset) =>
    match directAMode base offset ty with
    | some addr => some (addr, [])
    | none => scratchAMode base offset storeSrc

def appendAddConstant (dst base : Reg) (amount : BitVec 64) : Option (List FrameInst) :=
  match if 0 ≤ amount.toInt then Imm12.maybeFromU64 amount else none with
  | some imm => some [.aluRRImm12 .add .size64 dst base imm]
  | none => do
      let (copy, base) :=
        if base = stackReg then ([.movPhys .size64 (intReg 17) stackReg], intReg 17) else ([], base)
      let insts ← materializeIntegerConstant amount .size64 (intReg 14)
      some (copy ++ insts ++ [.aluRRR .add .size64 dst (.reg base) (.reg (intReg 14))])

def legalizeInst (checks : Bool) (outgoingArgsSize : BitVec 32) :
    FrameInst → Option (List FrameInst)
  | .stackAddr dst (.frameSlot offset) => do
      let offset ← slotOffset checks outgoingArgsSize offset
      appendAddConstant dst stackReg offset
  | .load ty dst addr => do
      let (addr, insts) ← legalizeAMode checks outgoingArgsSize addr ty none
      some (insts ++ [.load ty dst addr])
  | .store ty src addr => do
      let (addr, insts) ← legalizeAMode checks outgoingArgsSize addr ty (some src)
      some (insts ++ [.store ty src addr])
  | inst => some [inst]

/-! ## The machine -/

abbrev Bytes := BitVec 64 → BitVec 8

/-- The bytes from an address on, the first one lowest. -/
def Bytes.read (mem : Bytes) (address : BitVec 64) : Nat → Value
  | 0 => 0
  | count + 1 => (mem address).setWidth 128 ||| Bytes.read mem (address + 1) count <<< 8

/-- Exactly the bytes of the access change. -/
def Bytes.write (mem : Bytes) (address : BitVec 64) (count : Nat) (value : Value) : Bytes :=
  fun place =>
    let i := (place - address).toNat
    if i < count then (value >>> (8 * i)).setWidth 8 else mem place

structure FrameState where
  regs : Reg → Value
  mem : Bytes

def FrameState.word (s : FrameState) (r : Reg) : BitVec 64 := (s.regs r).read .size64

def FrameState.set (s : FrameState) (r : Reg) (v : Value) : FrameState :=
  { s with regs := Function.update s.regs r v }

def ExtendOp.eval (x : BitVec 64) : ExtendOp → BitVec 64
  | .uxtb => (x.setWidth 8).setWidth 64
  | .uxth => (x.setWidth 16).setWidth 64
  | .uxtw => (x.setWidth 32).setWidth 64
  | .sxtb => (x.setWidth 8).signExtend 64
  | .sxth => (x.setWidth 16).signExtend 64
  | .sxtw => (x.setWidth 32).signExtend 64
  | .uxtx | .sxtx => x

/-- The address of an access; a frame address has none before it is legalized. -/
def AMode.address (s : FrameState) : AMode → Option (BitVec 64)
  | .reg base => some (s.word base)
  | .unsignedOffset base offset => some (s.word base + offset.byteOffset)
  | .signedOffset base offset => some (s.word base + offset.value.signExtend 64)
  | .regOffset base index => some (s.word base + s.word index)
  | .scaledRegOffset base index shift => some (s.word base + s.word index <<< shift)
  | .extendedRegOffset base index extend shift =>
    some (s.word base + extend.eval (s.word index) <<< shift)
  | _ => none

def FrameInst.exec (s : FrameState) : FrameInst → Option FrameState
  | .stackAddr _ _ | .other _ => none
  | .load ty dst addr => (addr.address s).map fun a => s.set dst (s.mem.read a ty.byteSize)
  | .store ty src addr =>
    (addr.address s).map fun a => { s with mem := s.mem.write a ty.byteSize (s.regs src) }
  | .aluRRR op size dst lhs rhs =>
    some (s.set dst (Value.written (op.eval (lhs.read size s.regs) (rhs.read size s.regs))))
  | .aluRRImm12 op size dst src imm =>
    some (s.set dst (Value.written (op.eval ((s.regs src).read size) (imm.bits size))))
  | .movPhys size dst src => some (s.set dst (Value.written ((s.regs src).read size)))
  | .constant size dst step => some (s.set dst (step.exec size (s.regs dst)))

def execFrame (s : FrameState) (code : List FrameInst) : Option FrameState :=
  code.foldlM FrameInst.exec s

/-! ## Encodings -/

/-- The shift of a move of sixteen bits, and the bitmask of a logical form. -/
def ConstantStep.Encodable (size : OperandSize) : ConstantStep → Prop
  | .zero => True
  | .logical imm => imm.size = size ∧ IsBitmask imm.value size
  | .movZ imm | .movN imm | .movK imm => validShift imm.shift size = true

def AMode.Encodable (ty : MemoryType) : AMode → Prop
  | .reg _ | .signedOffset _ _ | .regOffset _ _ => True
  | .unsignedOffset _ offset => offset.accessSize = ty.byteSize
  | .scaledRegOffset _ _ shift => 2 ^ shift = ty.byteSize
  | .extendedRegOffset _ _ extend shift =>
    extend ∈ [ExtendOp.uxtw, .sxtw, .uxtx, .sxtx] ∧ (shift = 0 ∨ 2 ^ shift = ty.byteSize)
  | _ => False

/-- Register 31 is the zero register for data, and the stack pointer for bases. -/
def FrameInst.Encodable : FrameInst → Prop
  | .stackAddr _ _ => False
  | .load ty data addr | .store ty data addr => data ≠ stackReg ∧ addr.Encodable ty
  | .aluRRR _ _ dst lhs rhs => dst ≠ stackReg ∧ ∀ r ∈ lhs.regs ++ rhs.regs, r ≠ stackReg
  | .aluRRImm12 op _ _ _ _ => op = .add ∨ op = .sub
  | .constant size dst step => dst ≠ stackReg ∧ step.Encodable size
  | .movPhys _ _ _ | .other _ => True

/-! ## What is asked -/

/-- The place in the frame that an address stands for. -/
def AMode.frameAddress (outgoingArgsSize : BitVec 32) (s : FrameState) : AMode → Option (BitVec 64)
  | .frameSlot offset => some (s.word stackReg + outgoingArgsSize.setWidth 64 + offset)
  | .spOffset offset | .outgoingArg offset => some (s.word stackReg + offset)
  | .incomingArg offset => some (s.word (intReg fp) + offset)
  | _ => none

/-- The meaning of an instruction with a frame address. -/
def FrameInst.meaning (outgoingArgsSize : BitVec 32) (s : FrameState) :
    FrameInst → Option FrameState
  | .stackAddr dst addr =>
    (addr.frameAddress outgoingArgsSize s).map fun a => s.set dst (@Value.written .size64 a)
  | .load ty dst addr =>
    (addr.frameAddress outgoingArgsSize s).map fun a => s.set dst (s.mem.read a ty.byteSize)
  | .store ty src addr =>
    (addr.frameAddress outgoingArgsSize s).map fun a =>
      { s with mem := s.mem.write a ty.byteSize (s.regs src) }
  | _ => none

/-- The register of its own that an instruction writes. -/
def FrameInst.dst : FrameInst → Option Reg
  | .stackAddr dst _ | .load _ dst _ => some dst
  | _ => none

/-- The register with the data, which is never the stack pointer. -/
def FrameInst.data : FrameInst → Option Reg
  | .stackAddr data _ | .load _ data _ | .store _ data _ => some data
  | _ => none

def AMode.isFrame : AMode → Bool
  | .frameSlot _ | .spOffset _ | .incomingArg _ | .outgoingArg _ => true
  | _ => false

/-- The instructions with a frame address; addresses are taken of slots only. -/
def FrameInst.isFrame : FrameInst → Bool
  | .stackAddr _ (.frameSlot _) => true
  | .load _ _ addr | .store _ _ addr => addr.isFrame
  | _ => false

/-- Where overflow is checked the offset in the frame is an `i64`. -/
def AMode.Fits (checks : Bool) (outgoingArgsSize : BitVec 32) : AMode → Prop
  | .frameSlot offset => checks = true →
      (outgoingArgsSize.setWidth 64 + offset).toInt = outgoingArgsSize.toNat + offset.toInt
  | _ => True

def FrameInst.Fits (checks : Bool) (outgoingArgsSize : BitVec 32) : FrameInst → Prop
  | .stackAddr _ addr | .load _ _ addr | .store _ _ addr => addr.Fits checks outgoingArgsSize
  | _ => True

/-- The code does what the instruction means, and uses scratch registers apart from that. -/
def Does (outgoingArgsSize : BitVec 32) (code : List FrameInst) (inst : FrameInst) : Prop :=
  ∀ {s t}, inst.meaning outgoingArgsSize s = some t →
    ∃ s', execFrame s code = some s' ∧ s'.mem = t.mem ∧
      ∀ r, (r ∈ intPostRaScratch.map intReg → inst.dst = some r) → s'.regs r = t.regs r

/-- Legalization succeeds with code that can be encoded and does what the instruction means. -/
def Legalizes (checks : Bool) (outgoingArgsSize : BitVec 32) (inst : FrameInst) : Prop :=
  ∃ code, legalizeInst checks outgoingArgsSize inst = some code ∧
    (∀ i ∈ code, i.Encodable) ∧ Does outgoingArgsSize code inst

/-! ## Constants -/

section Constants

variable {value : BitVec 64} {size : OperandSize} {plan : List ConstantStep} {dst : Reg}
  {s t : FrameState}

variable {imm : MoveWideConst} {step : ConstantStep} {r r' : Reg}

theorem validShift_of_new {bits : BitVec 16} {shift : Nat}
    (made : MoveWideConst.new bits shift size = some imm) : validShift imm.shift size = true := by
  unfold MoveWideConst.new at made
  split at made
  · next valid =>
      cases made
      exact valid
  · cases made

/-- The sixteen bits that a step moves. -/
def ConstantStep.moved : ConstantStep → Option MoveWideConst
  | .movZ imm | .movN imm | .movK imm => some imm
  | .zero | .logical _ => none

theorem validShift_of_patches {chunks : List (BitVec 16)} {seedIndex : Nat} {seedValue : BitVec 16}
    (made : patches chunks size seedIndex seedValue = some plan) (member : step ∈ plan)
    (moves : step.moved = some imm) : validShift imm.shift size = true := by
  unfold patches at made
  generalize chunks.zipIdx.filter _ = pairs at made
  induction pairs generalizing plan with
  | nil =>
    cases made
    cases member
  | cons pair pairs ih =>
    simp only [List.mapM_cons, Option.bind_eq_bind, Option.bind_eq_some_iff, Option.pure_def,
      Option.some.injEq] at made
    obtain ⟨first, isFirst, rest, isRest, rfl⟩ := made
    rcases List.mem_cons.mp member with rfl | later
    · obtain ⟨made, isNew, rfl⟩ := Option.map_eq_some_iff.mp isFirst
      cases moves
      exact validShift_of_new isNew
    · exact ih later isRest

theorem validShift_of_plan (made : planIntegerConstant value size = some plan)
    (member : step ∈ plan) (moves : step.moved = some imm) : validShift imm.shift size = true := by
  -- a plan of one step
  have single : ∀ (make : MoveWideConst → ConstantStep), (∀ imm, (make imm).moved = some imm) →
      ∀ {bits shift made}, MoveWideConst.new bits shift size = some made →
        some [make made] = some plan → validShift imm.shift size = true := by
    intro make moved bits shift made isNew same
    cases same
    rw [List.mem_singleton.mp member, moved] at moves
    cases moves
    exact validShift_of_new isNew
  unfold planIntegerConstant at made
  split at made
  · cases made
    rw [List.mem_singleton.mp member] at moves
    cases moves
  · unfold planNonzero at made
    simp only [Option.bind_eq_bind] at made
    split at made
    · simp only [Option.bind_eq_some_iff] at made
      obtain ⟨index, -, chunk, -, imm', isNew, same⟩ := made
      exact single .movZ (fun _ => rfl) isNew same
    · split at made
      · simp only [Option.bind_eq_some_iff] at made
        obtain ⟨imm', isNew, same⟩ := made
        exact single .movN (fun _ => rfl) isNew same
      · split at made
        · simp only [Option.bind_eq_some_iff] at made
          obtain ⟨index, -, chunk, -, imm', isNew, same⟩ := made
          exact single .movN (fun _ => rfl) isNew same
        · split at made
          · cases made
            rw [List.mem_singleton.mp member] at moves
            cases moves
          · unfold seededPlan at made
            simp only [Option.bind_eq_bind, Option.bind_eq_some_iff, Option.some.injEq] at made
            obtain ⟨seedIndex, -, chunk, -, seed, isNew, rest, isRest, rfl⟩ := made
            rcases List.mem_cons.mp member with rfl | later
            · split at moves <;> cases moves <;> exact validShift_of_new isNew
            · exact validShift_of_patches isRest later moves

theorem encodable_of_plan (made : planIntegerConstant value size = some plan)
    (member : step ∈ plan) : step.Encodable size := by
  have valid : ∀ {imm}, step.moved = some imm → validShift imm.shift size = true :=
    validShift_of_plan made member
  cases step with
  | zero => trivial
  | logical imm =>
    obtain ⟨plan', made', -, -, bitmask⟩ := (planIntegerConstant_exact value size).1
    cases made.symm.trans made'
    exact bitmask imm member
  | movZ imm | movN imm | movK imm => exact valid rfl

theorem FrameState.set_set (s : FrameState) (r : Reg) (v w : Value) :
    (s.set r v).set r w = s.set r w := by
  simp [FrameState.set]

theorem FrameState.set_self (s : FrameState) (r : Reg) (v : Value) : (s.set r v).regs r = v :=
  Function.update_self ..

theorem FrameState.set_of_ne (s : FrameState) (differ : r' ≠ r) (v : Value) :
    (s.set r v).regs r' = s.regs r' := Function.update_of_ne differ ..

theorem FrameState.word_set_self (s : FrameState) (r : Reg) (w : BitVec 64) :
    (s.set r (@Value.written .size64 w)).word r = w := by
  rw [FrameState.word, FrameState.set_self, Value.read_written]

theorem FrameState.word_set_of_ne (s : FrameState) (differ : r' ≠ r) (v : Value) :
    (s.set r v).word r' = s.word r' := by
  rw [FrameState.word, FrameState.set_of_ne s differ, FrameState.word]

theorem execFrame_append (more : List FrameInst) {code : List FrameInst}
    (run : execFrame s code = some t) : execFrame s (code ++ more) = execFrame t more := by
  rw [execFrame, List.foldlM_append, ← execFrame, run]
  rfl

theorem execFrame_constants (size : OperandSize) (dst : Reg) (plan : List ConstantStep)
    (s : FrameState) : execFrame s (plan.map (.constant size dst)) =
      some (s.set dst (execSteps size (s.regs dst) plan)) := by
  induction plan generalizing s with
  | nil =>
    have same : s.set dst (s.regs dst) = s := by
      rw [FrameState.set, Function.update_eq_self]
    rw [execSteps, List.foldl_nil, same]
    rfl
  | cons step plan ih =>
    rw [List.map_cons, execFrame, List.foldlM_cons]
    change execFrame (s.set dst (step.exec size (s.regs dst))) _ = _
    rw [ih, FrameState.set_self, FrameState.set_set]
    rfl

/-- The constant is left in the register. -/
theorem materializeIntegerConstant_spec (value : BitVec 64) (notSp : dst ≠ stackReg) :
    ∃ code, materializeIntegerConstant value .size64 dst = some code ∧
      (∀ i ∈ code, i.Encodable) ∧
      ∀ s, execFrame s code = some (s.set dst (@Value.written .size64 value)) := by
  obtain ⟨plan, made, -, leaves, -⟩ := (planIntegerConstant_exact value .size64).1
  refine ⟨plan.map (.constant .size64 dst), by rw [materializeIntegerConstant, made]; rfl, ?_, ?_⟩
  · intro i member
    obtain ⟨step, isStep, rfl⟩ := List.mem_map.mp member
    exact ⟨notSp, encodable_of_plan made isStep⟩
  · intro s
    rw [execFrame_constants, leaves, BitVec.setWidth_eq]

end Constants

/-! ## Addresses -/

section Addresses

variable {checks : Bool} {outgoingArgsSize : BitVec 32} {base : Reg} {offset : BitVec 64}
  {ty : MemoryType} {addr : AMode} {s : FrameState}

theorem signExtend_setWidth (low : -256 ≤ offset.toInt) (high : offset.toInt ≤ 255) :
    (offset.setWidth 16).signExtend 64 = offset := by
  apply BitVec.eq_of_toInt_eq
  rw [BitVec.toInt_signExtend_of_le (by decide), BitVec.toInt_setWidth]
  rw [BitVec.toInt_eq_toNat_cond] at low high ⊢
  have := offset.isLt
  rw [Int.bmod_def]
  split at low <;> split at high <;> omega

/-- A form that holds the offset. -/
theorem directAMode_spec (found : directAMode base offset ty = some addr) :
    addr.Encodable ty ∧ ∀ s : FrameState, addr.address s = some (s.word base + offset) := by
  unfold directAMode at found
  rcases Option.or_eq_some_iff.mp found with isScaled | ⟨-, isUnscaled⟩
  · obtain ⟨scaled, made, rfl⟩ := Option.map_eq_some_iff.mp isScaled
    split at made
    · unfold UImm12Scaled.new at made
      split at made
      · split at made
        · next whole =>
            cases made
            refine ⟨rfl, fun s => ?_⟩
            have bytes : offset.toNat / ty.byteSize * ty.byteSize = offset.toNat :=
              Nat.div_mul_cancel (Nat.dvd_of_mod_eq_zero whole)
            simp [AMode.address, UImm12Scaled.byteOffset, bytes]
        · cases made
      · cases made
    · cases made
  · obtain ⟨unscaled, made, rfl⟩ := Option.map_eq_some_iff.mp isUnscaled
    split at made
    · next range =>
        unfold SImm9.new at made
        split at made
        · cases made
          refine ⟨trivial, fun s => ?_⟩
          rw [AMode.address, signExtend_setWidth range.1 range.2]
        · cases made
    · cases made

/-- Two scratch registers are left beside the one that is stored. -/
theorem scratches (storeSrc : Option Reg) : ∃ address offsetReg rest,
    ((intPostRaScratch.map intReg).filter fun scratch => some scratch ≠ storeSrc) =
      address :: offsetReg :: rest ∧ address ≠ offsetReg ∧
      (address ∈ intPostRaScratch.map intReg ∧ some address ≠ storeSrc) ∧
      offsetReg ∈ intPostRaScratch.map intReg ∧ some offsetReg ≠ storeSrc := by
  by_cases first : storeSrc = some (intReg 14)
  · subst first
    exact ⟨intReg 15, intReg 16, [intReg 17], by decide⟩
  by_cases second : storeSrc = some (intReg 15)
  · subst second
    exact ⟨intReg 14, intReg 16, [intReg 17], by decide⟩
  refine ⟨intReg 14, intReg 15, [intReg 16, intReg 17].filter fun scratch =>
    some scratch ≠ storeSrc,
    ?_, by decide, ⟨by decide, Ne.symm first⟩, by decide, Ne.symm second⟩
  simp [intPostRaScratch, Ne.symm first, Ne.symm second]

/-- The sum in the address register. -/
theorem run_add {address offsetReg base : Reg} (notOffset : base ≠ offsetReg) :
    execFrame (s.set offsetReg (@Value.written .size64 offset))
      [.aluRRR .add .size64 address (.reg base) (.reg offsetReg)] =
      some ((s.set offsetReg (@Value.written .size64 offset)).set address
        (@Value.written .size64 (s.word base + offset))) := by
  have added : execFrame (s.set offsetReg (@Value.written .size64 offset))
      [.aluRRR .add .size64 address (.reg base) (.reg offsetReg)] =
      some ((s.set offsetReg (@Value.written .size64 offset)).set address (@Value.written .size64
        ((s.set offsetReg (@Value.written .size64 offset)).word base +
          (s.set offsetReg (@Value.written .size64 offset)).word offsetReg))) := rfl
  rw [added, FrameState.word_set_of_ne s notOffset, FrameState.word_set_self]

/-- The same with a copy of the stack pointer. -/
theorem run_copyAdd {address offsetReg : Reg} (differ : address ≠ offsetReg)
    (notOffset : stackReg ≠ offsetReg) :
    execFrame (s.set offsetReg (@Value.written .size64 offset))
      ([.movPhys .size64 address stackReg] ++
        [.aluRRR .add .size64 address (.reg address) (.reg offsetReg)]) =
      some ((s.set offsetReg (@Value.written .size64 offset)).set address
        (@Value.written .size64 (s.word stackReg + offset))) := by
  let s₁ := s.set offsetReg (@Value.written .size64 offset)
  let s₂ := s₁.set address (@Value.written .size64 (s₁.word stackReg))
  have added : execFrame s₁ ([.movPhys .size64 address stackReg] ++
      [.aluRRR .add .size64 address (.reg address) (.reg offsetReg)]) =
      some (s₂.set address (@Value.written .size64 (s₂.word address + s₂.word offsetReg))) := rfl
  have copied : s₂.word address = s.word stackReg :=
    (FrameState.word_set_self _ _ _).trans (FrameState.word_set_of_ne s notOffset _)
  have stays : s₂.word offsetReg = offset :=
    (FrameState.word_set_of_ne s₁ differ.symm _).trans (FrameState.word_set_self _ _ _)
  rw [added, copied, stays, FrameState.set_set]

/-- A register that no scratch register is. -/
def Kept (storeSrc : Option Reg) (r : Reg) : Prop :=
  r ∈ intPostRaScratch.map intReg → some r = storeSrc

/-- The address is put together, and what is stored stays as it is. -/
theorem scratchAMode_spec (isBase : base = stackReg ∨ base = intReg fp) (offset : BitVec 64)
    (storeSrc : Option Reg) : ∃ addr code, scratchAMode base offset storeSrc = some (addr, code) ∧
      addr.Encodable ty ∧ (∀ i ∈ code, i.Encodable) ∧
      ∀ s : FrameState, ∃ s', execFrame s code = some s' ∧ s'.mem = s.mem ∧
        (∀ r, Kept storeSrc r → s'.regs r = s.regs r) ∧
        addr.address s' = some (s.word base + offset) := by
  obtain ⟨address, offsetReg, rest, isScratch, differ, ⟨isAddress, addressFree⟩, isOffset,
    offsetFree⟩ := scratches storeSrc
  have notScratch : ∀ r ∈ intPostRaScratch.map intReg, r ≠ stackReg ∧ r ≠ intReg fp := by decide
  obtain ⟨insts, made, encodable, run⟩ :=
    materializeIntegerConstant_spec offset (notScratch offsetReg isOffset).1
  have kept : ∀ {r}, Kept storeSrc r → r ≠ address ∧ r ≠ offsetReg := fun {r} stays =>
    ⟨fun same => addressFree (same ▸ stays (same ▸ isAddress)),
      fun same => offsetFree (same ▸ stays (same ▸ isOffset))⟩
  have left : ∀ (s : FrameState) {v w : Value} (r : Reg), Kept storeSrc r →
      ((s.set offsetReg v).set address w).regs r = s.regs r := by
    intro s v w r stays
    rw [FrameState.set_of_ne _ (kept stays).1, FrameState.set_of_ne _ (kept stays).2]
  have sum : ∀ (s : FrameState) {v : Value} (b : Reg), (AMode.reg address).address
      ((s.set offsetReg v).set address (@Value.written .size64 (s.word b + offset))) =
        some (s.word b + offset) := by
    intro s v b
    rw [AMode.address, FrameState.word_set_self]
  -- the sum of two registers that are not the stack pointer
  have add : ∀ {b : Reg}, b ≠ stackReg →
      (FrameInst.aluRRR .add .size64 address (.reg b) (.reg offsetReg)).Encodable := by
    intro b notSp
    refine ⟨(notScratch address isAddress).1, fun r member => ?_⟩
    rcases List.mem_cons.mp member with rfl | member
    · exact notSp
    · rw [List.mem_singleton.mp member]
      exact (notScratch offsetReg isOffset).1
  rcases isBase with rfl | rfl
  · refine ⟨.reg address, insts ++ [.movPhys .size64 address stackReg] ++
      [.aluRRR .add .size64 address (.reg address) (.reg offsetReg)], ?_, trivial, ?_, fun s => ?_⟩
    · simp only [scratchAMode, isScratch, made, Option.bind_eq_bind, Option.bind_some, if_true]
    · intro i member
      rcases List.mem_append.mp member with member | member
      · rcases List.mem_append.mp member with member | member
        · exact encodable i member
        · rw [List.mem_singleton.mp member]
          trivial
      · rw [List.mem_singleton.mp member]
        exact add (notScratch address isAddress).1
    · rw [List.append_assoc]
      exact ⟨_, (execFrame_append _ (run s)).trans
        (run_copyAdd differ (notScratch offsetReg isOffset).1.symm), rfl, left s, sum s stackReg⟩
  · refine ⟨.reg address, insts ++ [] ++
      [.aluRRR .add .size64 address (.reg (intReg fp)) (.reg offsetReg)], ?_, trivial, ?_,
      fun s => ?_⟩
    · have notSp : intReg fp ≠ stackReg := by decide
      simp only [scratchAMode, isScratch, made, Option.bind_eq_bind, Option.bind_some, notSp,
        if_false]
    · intro i member
      rw [List.append_nil] at member
      rcases List.mem_append.mp member with member | member
      · exact encodable i member
      · rw [List.mem_singleton.mp member]
        exact add (by decide)
    · rw [List.append_nil]
      exact ⟨_, (execFrame_append _ (run s)).trans
        (run_add (notScratch offsetReg isOffset).2.symm), rfl, left s, sum s (intReg fp)⟩

theorem slotOffset_eq (fits : (AMode.frameSlot offset).Fits checks outgoingArgsSize) :
    slotOffset checks outgoingArgsSize offset = some (outgoingArgsSize.setWidth 64 + offset) := by
  unfold slotOffset
  refine if_neg ?_
  rintro ⟨isChecked, overflows⟩
  exact overflows (fits isChecked)

theorem frameBase_spec (isFrame : addr.isFrame = true) (fits : addr.Fits checks outgoingArgsSize) :
    ∃ base offset, frameBase checks outgoingArgsSize addr = some (some (base, offset)) ∧
      (base = stackReg ∨ base = intReg fp) ∧
      ∀ s : FrameState, addr.frameAddress outgoingArgsSize s = some (s.word base + offset) := by
  cases addr with
  | frameSlot offset =>
    refine ⟨stackReg, outgoingArgsSize.setWidth 64 + offset, ?_, .inl rfl, fun s => ?_⟩
    · rw [frameBase, slotOffset_eq fits, Option.map_some]
    · rw [AMode.frameAddress, BitVec.add_assoc]
  | spOffset offset | outgoingArg offset => exact ⟨stackReg, offset, rfl, .inl rfl, fun _ => rfl⟩
  | incomingArg offset => exact ⟨intReg fp, offset, rfl, .inr rfl, fun _ => rfl⟩
  | _ => cases isFrame

/-- The address is the same place in the frame. -/
theorem legalizeAMode_spec (isFrame : addr.isFrame = true)
    (fits : addr.Fits checks outgoingArgsSize) (ty : MemoryType) (storeSrc : Option Reg) :
    ∃ addr' code, legalizeAMode checks outgoingArgsSize addr ty storeSrc = some (addr', code) ∧
      addr'.Encodable ty ∧ (∀ i ∈ code, i.Encodable) ∧
      ∀ s : FrameState, ∃ s', execFrame s code = some s' ∧ s'.mem = s.mem ∧
        (∀ r, Kept storeSrc r → s'.regs r = s.regs r) ∧
        addr'.address s' = addr.frameAddress outgoingArgsSize s := by
  obtain ⟨base, offset, found, isBase, place⟩ := frameBase_spec isFrame fits
  cases direct : directAMode base offset ty with
  | some addr' =>
    obtain ⟨encodable, address⟩ := directAMode_spec direct
    refine ⟨addr', [], ?_, encodable, fun _ member => (nomatch member), fun s =>
      ⟨s, rfl, rfl, fun _ _ => rfl, (address s).trans (place s).symm⟩⟩
    simp only [legalizeAMode, found, direct, Option.bind_eq_bind, Option.bind_some]
  | none =>
    obtain ⟨addr', code, made, encodable, encodables, run⟩ :=
      scratchAMode_spec isBase offset storeSrc
    refine ⟨addr', code, ?_, encodable, encodables, fun s => ?_⟩
    · simp only [legalizeAMode, found, direct, made, Option.bind_eq_bind, Option.bind_some]
    · obtain ⟨s', done, mem, kept, address⟩ := run s
      exact ⟨s', done, mem, kept, address.trans (place s).symm⟩

theorem maybeFromU64_bits {val : BitVec 64} {imm : Imm12}
    (made : Imm12.maybeFromU64 val = some imm) : imm.bits .size64 = val := by
  unfold Imm12.maybeFromU64 at made
  split at made
  · cases made
    simp [Imm12.bits]
  · split at made
    · split at made
      · next whole =>
          cases made
          have value : val.toNat / 4096 * 4096 = val.toNat :=
            Nat.div_mul_cancel (Nat.dvd_of_mod_eq_zero whole)
          simp [Imm12.bits, value]
      · cases made
    · cases made

/-- The sum is left in the destination. -/
theorem appendAddConstant_spec {dst : Reg} (notSp : dst ≠ stackReg) (amount : BitVec 64) :
    ∃ code, appendAddConstant dst stackReg amount = some code ∧ (∀ i ∈ code, i.Encodable) ∧
      ∀ s : FrameState, ∃ s', execFrame s code = some s' ∧ s'.mem = s.mem ∧
        s'.regs dst = @Value.written .size64 (s.word stackReg + amount) ∧
        ∀ r, r ∉ intPostRaScratch.map intReg → r ≠ dst → s'.regs r = s.regs r := by
  unfold appendAddConstant
  split
  · next imm isImm =>
      split at isImm
      · refine ⟨_, rfl, fun i member => ?_, fun s => ⟨_, rfl, rfl, ?_, fun r _ other => ?_⟩⟩
        · rw [List.mem_singleton.mp member]
          exact .inl rfl
        · rw [FrameState.set_self, maybeFromU64_bits isImm]
          rfl
        · exact FrameState.set_of_ne s other _
      · cases isImm
  · have isScratch : intReg 14 ∈ intPostRaScratch.map intReg ∧
      intReg 17 ∈ intPostRaScratch.map intReg :=
      by decide
    obtain ⟨insts, made, encodable, run⟩ :=
      materializeIntegerConstant_spec amount (show intReg 14 ≠ stackReg by decide)
    simp only [if_true, made, Option.bind_eq_bind, Option.bind_some]
    refine ⟨_, rfl, fun i member => ?_, fun s => ?_⟩
    · rcases List.mem_append.mp member with member | member
      · rcases List.mem_append.mp member with member | member
        · rw [List.mem_singleton.mp member]
          trivial
        · exact encodable i member
      · rw [List.mem_singleton.mp member]
        refine ⟨notSp, ?_⟩
        decide
    · let s₁ := s.set (intReg 17) (@Value.written .size64 (s.word stackReg))
      have start : execFrame s ([.movPhys .size64 (intReg 17) stackReg] ++ insts) =
          some (s₁.set (intReg 14) (@Value.written .size64 amount)) :=
        (execFrame_append _ rfl).trans (run s₁)
      have copied : s₁.word (intReg 17) = s.word stackReg := FrameState.word_set_self _ _ _
      have added : execFrame (s₁.set (intReg 14) (@Value.written .size64 amount))
          [.aluRRR .add .size64 dst (.reg (intReg 17)) (.reg (intReg 14))] =
          some ((s₁.set (intReg 14) (@Value.written .size64 amount)).set dst
            (@Value.written .size64 (s₁.word (intReg 17) + amount))) := run_add (by decide)
      refine ⟨_, (execFrame_append _ start).trans added, rfl, ?_, fun r kept other => ?_⟩
      · rw [FrameState.set_self, copied]
      · have not14 : r ≠ intReg 14 := fun same => kept (same ▸ isScratch.1)
        have not17 : r ≠ intReg 17 := fun same => kept (same ▸ isScratch.2)
        rw [FrameState.set_of_ne _ other, FrameState.set_of_ne _ not14,
          FrameState.set_of_ne _ not17]

end Addresses

/-! ## Instructions with frame addresses -/

section Instructions

variable {checks : Bool} {outgoingArgsSize : BitVec 32} {inst : FrameInst}

theorem legalizes_stackAddr {dst : Reg} {offset : BitVec 64} (notSp : dst ≠ stackReg)
    (fits : (AMode.frameSlot offset).Fits checks outgoingArgsSize) :
    Legalizes checks outgoingArgsSize (.stackAddr dst (.frameSlot offset)) := by
  obtain ⟨code, made, encodable, run⟩ :=
    appendAddConstant_spec notSp (outgoingArgsSize.setWidth 64 + offset)
  refine ⟨code, ?_, encodable, fun {s t} means => ?_⟩
  · simp only [legalizeInst, slotOffset_eq fits, Option.bind_eq_bind, Option.bind_some, made]
  · obtain ⟨s', done, mem, isDst, kept⟩ := run s
    cases means
    refine ⟨s', done, mem, fun r scratch => ?_⟩
    by_cases here : r = dst
    · subst here
      rw [isDst, FrameState.set_self, BitVec.add_assoc]
    · rw [FrameState.set_of_ne s here]
      exact kept r (fun isScratch => here (Option.some.inj (scratch isScratch)).symm) here

theorem legalizes_load {ty : MemoryType} {dst : Reg} {addr : AMode} (isFrame : addr.isFrame = true)
    (notSp : dst ≠ stackReg) (fits : addr.Fits checks outgoingArgsSize) :
    Legalizes checks outgoingArgsSize (.load ty dst addr) := by
  obtain ⟨addr', code, made, encodable, encodables, run⟩ := legalizeAMode_spec isFrame fits ty none
  refine ⟨code ++ [.load ty dst addr'], ?_, fun i member => ?_, fun {s t} means => ?_⟩
  · simp only [legalizeInst, made, Option.bind_eq_bind, Option.bind_some]
  · rcases List.mem_append.mp member with member | member
    · exact encodables i member
    · rw [List.mem_singleton.mp member]
      exact ⟨notSp, encodable⟩
  · obtain ⟨s', done, mem, kept, address⟩ := run s
    obtain ⟨place, isPlace, rfl⟩ := Option.map_eq_some_iff.mp means
    have last : execFrame s' [.load ty dst addr'] =
        some (s'.set dst (s'.mem.read place ty.byteSize)) := by
      rw [execFrame, List.foldlM_cons, FrameInst.exec, address, isPlace]
      rfl
    refine ⟨_, (execFrame_append _ done).trans last, mem, fun r scratch => ?_⟩
    by_cases here : r = dst
    · subst here
      rw [FrameState.set_self, FrameState.set_self, mem]
    · rw [FrameState.set_of_ne _ here, FrameState.set_of_ne _ here]
      exact kept r fun isScratch => absurd (Option.some.inj (scratch isScratch)).symm here

theorem legalizes_store {ty : MemoryType} {src : Reg} {addr : AMode} (isFrame : addr.isFrame = true)
    (notSp : src ≠ stackReg) (fits : addr.Fits checks outgoingArgsSize) :
    Legalizes checks outgoingArgsSize (.store ty src addr) := by
  obtain ⟨addr', code, made, encodable, encodables, run⟩ :=
    legalizeAMode_spec isFrame fits ty (some src)
  refine ⟨code ++ [.store ty src addr'], ?_, fun i member => ?_, fun {s t} means => ?_⟩
  · simp only [legalizeInst, made, Option.bind_eq_bind, Option.bind_some]
  · rcases List.mem_append.mp member with member | member
    · exact encodables i member
    · rw [List.mem_singleton.mp member]
      exact ⟨notSp, encodable⟩
  · obtain ⟨s', done, mem, kept, address⟩ := run s
    obtain ⟨place, isPlace, rfl⟩ := Option.map_eq_some_iff.mp means
    -- the value that is stored is still there
    have value : s'.regs src = s.regs src := kept src fun _ => rfl
    have last : execFrame s' [.store ty src addr'] =
        some { s' with mem := s'.mem.write place ty.byteSize (s'.regs src) } := by
      rw [execFrame, List.foldlM_cons, FrameInst.exec, address, isPlace]
      rfl
    refine ⟨_, (execFrame_append _ done).trans last, ?_, fun r scratch => ?_⟩
    · dsimp only
      rw [mem, value]
    · exact kept r fun isScratch => (nomatch scratch isScratch)

/-- Every load, store and slot address of the frame is legalized exactly; the address of
anything but a slot is left as it is. -/
theorem legalizeInst_legalizes (isFrame : inst.isFrame = true) (notSp : inst.data ≠ some stackReg)
    (fits : inst.Fits checks outgoingArgsSize) :
    Legalizes checks outgoingArgsSize inst ∧
      ∀ dst addr, (∀ offset, addr ≠ .frameSlot offset) →
        legalizeInst checks outgoingArgsSize (.stackAddr dst addr) =
          some [.stackAddr dst addr] := by
  constructor
  · cases inst with
    | stackAddr dst addr =>
      cases addr with
      | frameSlot offset =>
        exact legalizes_stackAddr (fun same => notSp (congrArg some same)) fits
      | _ => cases isFrame
    | load ty dst addr =>
      exact legalizes_load isFrame (fun same => notSp (congrArg some same)) fits
    | store ty src addr =>
      exact legalizes_store isFrame (fun same => notSp (congrArg some same)) fits
    | _ => cases isFrame
  · intro dst addr notSlot
    cases addr with
    | frameSlot offset => exact absurd rfl (notSlot offset)
    | _ => rfl

/-- Offsets that no immediate holds, and a scratch register that is stored. -/
theorem legalizeInst_legalizes_far :
    Legalizes true 16 (.load .i32 (intReg 0) (.frameSlot 0x7fffffffffffffe0#64)) ∧
      Legalizes true 16 (.store .i64 (intReg 14) (.spOffset (-4096#64))) :=
  ⟨And.left (legalizeInst_legalizes rfl (by decide) (fun _ => by decide)),
    And.left (legalizeInst_legalizes rfl (by decide) trivial)⟩

/-- The address of an argument is left as it is, and with checks a sum can overflow. -/
theorem legalizeInst_not_legalizes :
    ¬ Legalizes false 0 (.stackAddr (intReg 0) (.incomingArg 0)) ∧
      ¬ Legalizes true 16 (.load .i32 (intReg 0) (.frameSlot 0x7fffffffffffffff#64)) := by
  constructor
  · rintro ⟨code, made, encodable, -⟩
    cases made
    exact encodable _ List.mem_cons_self
  · rintro ⟨code, made, -⟩
    have panics : legalizeInst true 16
        (.load .i32 (intReg 0) (.frameSlot 0x7fffffffffffffff#64)) = none := by decide
    rw [panics] at made
    cases made

end Instructions

/-! ## Moves between slots -/

/-- A move through the first scratch register. -/
def genStackToStackMove (src dst : BitVec 64) : List FrameInst :=
  [.load .i64 (intReg 14) (.spOffset src), .store .i64 (intReg 14) (.spOffset dst)]

end AnonCompiler.Mir
