import AnonCompiler.Riscv.FrameAccess

/-!
# When spills and frame addresses are exact

Run over a block, the code of the items does what they ask for as long as each of them is
`Clear`: where its offset is out of range, the value in x31 is neither stored nor needed
later.  Every item that is not clear goes wrong in some state.
-/

set_option autoImplicit false

namespace AnonCompiler.Riscv

open Mir (Bytes Value)

/-! ## Registers -/

variable {r : PReg} {m n : Machine} {needed : Bool}

theorem usable_ne (isUsable : r ∈ usable) : r ≠ spilltmpReg2 ∧ r ≠ stackReg := by
  revert r
  decide

namespace Machine

variable (m : Machine) {r r' : PReg} {value : BitVec 64}

/-- What a register holds of a value. -/
def fit : PReg → BitVec 64 → BitVec 64
  | ⟨n, .int⟩, value => if n = 0 then 0 else value
  | ⟨_, .float⟩, value => (value.setWidth 32).setWidth 64

theorem get_set (r r' : PReg) (value : BitVec 64) :
    (m.set r value).get r' = if r' = r then fit r value else m.get r' := by
  obtain ⟨n, cls⟩ := r
  obtain ⟨n', cls'⟩ := r'
  cases cls with
  | int =>
    cases cls' with
    | int =>
      by_cases same : n' = n
      · subst same
        simp [set, get, fit]
      · simp [set, get, same]
    | float => simp [set, get]
  | float =>
    cases cls' with
    | int => simp [set, get]
    | float =>
      by_cases same : n' = n
      · subst same
        simp [set, get, fit]
      · simp [set, get, same]

theorem get_set_of_ne (differ : r' ≠ r) : (m.set r value).get r' = m.get r' := by
  rw [get_set, if_neg differ]

@[simp] theorem set_mem (r : PReg) (value : BitVec 64) : (m.set r value).mem = m.mem := by
  obtain ⟨n, cls⟩ := r
  cases cls <;> rfl

@[simp] theorem write_get (address : BitVec 64) (op : StoreOP) (value : BitVec 64) (r : PReg) :
    (m.write address op value).get r = m.get r := by
  obtain ⟨n, cls⟩ := r
  cases cls <;> rfl

theorem write_mem (address : BitVec 64) (op : StoreOP) (value : BitVec 64) :
    (m.write address op value).mem = m.mem.write address op.size (value.setWidth 128) := rfl

/-- The address is in x31, the offset in x30. -/
def far (offset : Int) : Machine :=
  (m.set spilltmpReg2 (BitVec.ofInt 64 offset)).set spilltmpReg (m.sp + BitVec.ofInt 64 offset)

theorem far_get_of_ne {offset : Int} (notOffset : r ≠ spilltmpReg2) (notAddress : r ≠ spilltmpReg) :
    (m.far offset).get r = m.get r := by
  rw [far, get_set_of_ne _ notAddress, get_set_of_ne _ notOffset]

@[simp] theorem far_address (offset : Int) :
    (m.far offset).get spilltmpReg = m.sp + BitVec.ofInt 64 offset := by
  rw [far, get_set, if_pos rfl]
  rfl

@[simp] theorem far_mem (offset : Int) : (m.far offset).mem = m.mem := by
  rw [far, set_mem, set_mem]

end Machine

open Machine

/-! ## Running the code of an access -/

theorem execCode_append (m : Machine) (code code' : List MInst) :
    execCode m (code ++ code') = (execCode m code).bind fun t => execCode t code' := by
  simp only [execCode, List.foldlM_append]
  rfl

theorem execCode_singleton (m : Machine) (inst : MInst) : execCode m [inst] = inst.exec m := by
  simp only [execCode, List.foldlM_cons, List.foldlM_nil, bind_pure]

/-- The state in which an access at an offset is made. -/
def atOffset (m : Machine) (offset : Int) : Machine := if InRange12 offset then m else m.far offset

theorem exec_normalize (m : Machine) (offset : Int) :
    execCode m (AMode.spOffset offset).normalizeImm12.2 = some (atOffset m offset) ∧
      (AMode.spOffset offset).normalizeImm12.1.address (atOffset m offset) =
        some (m.sp + BitVec.ofInt 64 offset) := by
  unfold AMode.normalizeImm12 atOffset
  by_cases near : InRange12 offset
  · simp [AMode.offsetAndBase, near, execCode, AMode.address]
  · have inRange : InRange12 0 := by decide
    have base : ((m.set spilltmpReg2 (BitVec.ofInt 64 offset)).get stackReg) = m.sp :=
      get_set_of_ne m (by decide)
    have counted : ((m.set spilltmpReg2 (BitVec.ofInt 64 offset)).get spilltmpReg2) =
        BitVec.ofInt 64 offset := by
      rw [get_set, if_pos rfl]
      rfl
    constructor
    · simp only [AMode.offsetAndBase, near, if_false, execCode, List.foldlM_cons, List.foldlM_nil,
        MInst.exec, Option.bind_eq_bind, Option.bind_some, Option.pure_def, base, counted, far]
    · simp only [AMode.offsetAndBase, near, if_false, AMode.address, if_pos inRange, far_address]
      simp

theorem exec_store (m : Machine) (src : PReg) (op : StoreOP) (offset : Int) :
    execCode m (Access.store src op offset).code =
      some ((atOffset m offset).write (m.sp + BitVec.ofInt 64 offset) op
        ((atOffset m offset).get src)) := by
  obtain ⟨ran, address⟩ := exec_normalize m offset
  rw [Access.code, execCode_append, ran, Option.bind_some, execCode_singleton, MInst.exec, address,
    Option.map_some]

theorem exec_load (m : Machine) (dst : PReg) (op : LoadOP) (offset : Int) :
    execCode m (Access.load dst op offset).code =
      some ((atOffset m offset).set dst (op.eval m.mem (m.sp + BitVec.ofInt 64 offset))) := by
  obtain ⟨ran, address⟩ := exec_normalize m offset
  have sameMem : (atOffset m offset).mem = m.mem := by
    unfold atOffset
    split
    · rfl
    · exact far_mem m offset
  rw [Access.code, execCode_append, ran, Option.bind_some, execCode_singleton, MInst.exec, address,
    Option.map_some, sameMem]

theorem atOffset_get_of_ne {offset : Int} (notOffset : r ≠ spilltmpReg2)
    (notAddress : r ≠ spilltmpReg) : (atOffset m offset).get r = m.get r := by
  unfold atOffset
  split
  · rfl
  · exact far_get_of_ne m notOffset notAddress

@[simp] theorem atOffset_mem (m : Machine) (offset : Int) : (atOffset m offset).mem = m.mem := by
  unfold atOffset
  split
  · rfl
  · exact far_mem m offset

/-- The slot's bytes go through x31. -/
def copied (m : Machine) (src : Int) : Machine :=
  (atOffset m src).set spilltmpReg (LoadOP.ld.eval m.mem (m.sp + BitVec.ofInt 64 src))

theorem copied_sp (m : Machine) (src : Int) : (copied m src).sp = m.sp := by
  unfold copied Machine.sp
  rw [get_set_of_ne _ (by decide), atOffset_get_of_ne (by decide) (by decide)]

theorem exec_copy (m : Machine) (src dst : Int) :
    execCode m (Access.copy src dst).code =
      some ((atOffset (copied m src) dst).write (m.sp + BitVec.ofInt 64 dst) .sd
        ((atOffset (copied m src) dst).get spilltmpReg)) := by
  have loaded := exec_load m spilltmpReg .ld src
  have stored := exec_store (copied m src) spilltmpReg .sd dst
  rw [copied_sp] at stored
  have split : (Access.copy src dst).code =
      (Access.load spilltmpReg .ld src).code ++ (Access.store spilltmpReg .sd dst).code := rfl
  rw [split, execCode_append, loaded, Option.bind_some]
  exact stored

theorem exec_address (m : Machine) (dst : PReg) (offset : Int) :
    execCode m (Access.address dst offset).code =
      some ((if InRange12 offset then m else m.set spilltmpReg2 (BitVec.ofInt 64 offset)).set dst
        (m.sp + BitVec.ofInt 64 offset)) := by
  by_cases near : InRange12 offset
  · simp [Access.code, legalizeInst, Imm12.fromI32, near, execCode, MInst.exec, Machine.sp]
  · have base : ((m.set spilltmpReg2 (BitVec.ofInt 64 offset)).get stackReg) = m.sp :=
      get_set_of_ne m (by decide)
    have counted : ((m.set spilltmpReg2 (BitVec.ofInt 64 offset)).get spilltmpReg2) =
        BitVec.ofInt 64 offset := by
      rw [get_set, if_pos rfl]
      rfl
    simp [Access.code, legalizeInst, Imm12.fromI32, near, execCode, MInst.exec, base, counted]

/-! ## One access -/

namespace Access

/-- The code does what is asked for.  x30 holds nothing, and x31 matters where a later item
needs it or the access itself delivers its value there. -/
def Exact (needed : Bool) (access : Access) : Prop :=
  ∀ m, ∃ t, execCode m access.code = some t ∧ t.mem = (access.meaning m).mem ∧
    ∀ r, r ≠ spilltmpReg2 → (r = spilltmpReg → needed = true ∨ access.dst = some spilltmpReg) →
      t.get r = (access.meaning m).get r

/-- The address does not have to be put into x31 where that register is in use. -/
def Clear (needed : Bool) : Access → Prop
  | .move _ _ => True
  | .store src _ offset => InRange12 offset ∨ src ≠ spilltmpReg ∧ needed = false
  | .load dst _ offset => InRange12 offset ∨ dst = spilltmpReg ∨ needed = false
  | .copy _ dst => InRange12 dst ∧ needed = false
  | .address _ _ => True

variable {needed : Bool}

variable {offset : Int}

theorem exact_move (src dst : PReg) : (move src dst).Exact needed := fun m =>
  ⟨m.set dst (m.get src), execCode_singleton m _, rfl, fun _ _ _ => rfl⟩

theorem exact_address (dst : PReg) (offset : Int) : (address dst offset).Exact needed := by
  intro m
  refine ⟨_, exec_address m dst offset, ?_, fun r notOffset _ => ?_⟩
  · split <;> simp [meaning]
  · rw [meaning, get_set, get_set]
    split
    · rfl
    · split
      · rfl
      · exact get_set_of_ne m notOffset

theorem exact_store {src : PReg} (isUsable : src ∈ usable) {op : StoreOP}
    (clear : (store src op offset).Clear needed) : (store src op offset).Exact needed := by
  intro m
  refine ⟨_, exec_store m src op offset, ?_, fun r notOffset observed => ?_⟩
  · rw [meaning, write_mem, write_mem, atOffset_mem]
    rcases clear with near | ⟨notAddress, -⟩
    · rw [atOffset, if_pos near]
    · rw [atOffset_get_of_ne (usable_ne isUsable).1 notAddress]
  · rw [meaning, write_get, write_get]
    rcases clear with near | ⟨-, unneeded⟩
    · rw [atOffset, if_pos near]
    · refine atOffset_get_of_ne notOffset fun isAddress => ?_
      simpa [unneeded, Access.dst] using observed isAddress

theorem exact_load {dst : PReg} {op : LoadOP} (clear : (load dst op offset).Clear needed) :
    (load dst op offset).Exact needed := by
  intro m
  refine ⟨_, exec_load m dst op offset, ?_, fun r notOffset observed => ?_⟩
  · rw [meaning, set_mem, set_mem, atOffset_mem]
  · rw [meaning, get_set, get_set]
    split
    · rfl
    · next other =>
        rcases clear with near | delivered | unneeded
        · rw [atOffset, if_pos near]
        · exact atOffset_get_of_ne notOffset (delivered ▸ other)
        · refine atOffset_get_of_ne notOffset fun isAddress => ?_
          rcases observed isAddress with isNeeded | isDst
          · simp [unneeded] at isNeeded
          · exact other (isAddress.trans (Option.some.inj isDst).symm)

theorem exact_copy {src dst : Int} (clear : (copy src dst).Clear needed) :
    (copy src dst).Exact needed := by
  obtain ⟨near, unneeded⟩ := clear
  intro m
  refine ⟨_, exec_copy m src dst, ?_, fun r notOffset observed => ?_⟩
  · rw [meaning, write_mem, write_mem, atOffset_mem, atOffset, if_pos near, copied, get_set,
      if_pos rfl, set_mem, atOffset_mem]
    rfl
  · rw [meaning, write_get, write_get, atOffset, if_pos near]
    have notAddress : r ≠ spilltmpReg := fun isAddress => by
      simpa [unneeded, Access.dst] using observed isAddress
    rw [copied, get_set_of_ne _ notAddress, atOffset_get_of_ne notOffset notAddress]

/-! ### States in which an access that is not clear goes wrong -/

/-- The offset leads to the given place; x31 holds one, and everything else zero. -/
def spoiled (offset : Int) (place : BitVec 64) : Machine where
  x := fun n => if n = 2 then place - BitVec.ofInt 64 offset else if n = 31 then 1 else 0
  f := fun _ => 0
  mem := fun _ => 0

theorem spoiled_sp (offset : Int) (place : BitVec 64) :
    (spoiled offset place).sp + BitVec.ofInt 64 offset = place := by
  have : (spoiled offset place).sp = place - BitVec.ofInt 64 offset := rfl
  rw [this, BitVec.sub_add_cancel]

theorem spoiled_get (offset : Int) (place : BitVec 64) :
    (spoiled offset place).get spilltmpReg = 1 := rfl

theorem read_zero (address : BitVec 64) (count : Nat) :
    Bytes.read (fun _ => 0) address count = 0 := by
  induction count generalizing address with
  | zero => rfl
  | succ count ih =>
    rw [Bytes.read, ih]
    rfl

theorem eval_spoiled (offset : Int) (place address : BitVec 64) :
    LoadOP.ld.eval (spoiled offset place).mem address = 0 := by
  show (Bytes.read (fun _ => 0) address 8).setWidth 64 = 0
  rw [read_zero]
  rfl

/-- The byte at the place of a store is its lowest one. -/
theorem write_lowest (mem : Bytes) (place : BitVec 64) (op : StoreOP) (value : Value) :
    mem.write place op.size value place = value.setWidth 8 := by
  have some_ : 0 < op.size := by cases op <;> decide
  simp [Bytes.write, some_]

/-- A far access leaves its address in x31. -/
theorem atOffset_spoiled (far : ¬ InRange12 offset) (place : BitVec 64) :
    (atOffset (spoiled offset place) offset).get spilltmpReg = place := by
  rw [atOffset, if_neg far, far_address, spoiled_sp]

theorem store_clear {src : PReg} {op : StoreOP} (exact_ : (store src op offset).Exact needed) :
    (store src op offset).Clear needed := by
  by_cases far : InRange12 offset
  · exact .inl far
  obtain ⟨t, ran, sameMem, sameRegs⟩ := exact_ (spoiled offset 0)
  obtain rfl := Option.some.inj ((exec_store _ src op offset).symm.trans ran)
  refine .inr ⟨?_, ?_⟩
  · rintro rfl
    have := congrFun sameMem 0
    rw [write_mem, meaning, write_mem, spoiled_sp, write_lowest, write_lowest, atOffset_spoiled far,
      spoiled_get] at this
    exact absurd this (by decide)
  · by_contra isNeeded
    have := sameRegs spilltmpReg (by decide) fun _ => .inl (by simpa using isNeeded)
    rw [write_get, meaning, write_get, atOffset_spoiled far, spoiled_get] at this
    exact absurd this (by decide)

theorem load_clear {dst : PReg} {op : LoadOP} (exact_ : (load dst op offset).Exact needed) :
    (load dst op offset).Clear needed := by
  by_cases far : InRange12 offset
  · exact .inl far
  by_cases delivered : dst = spilltmpReg
  · exact .inr (.inl delivered)
  obtain ⟨t, ran, -, sameRegs⟩ := exact_ (spoiled offset 0)
  obtain rfl := Option.some.inj ((exec_load _ dst op offset).symm.trans ran)
  refine .inr (.inr ?_)
  by_contra isNeeded
  have := sameRegs spilltmpReg (by decide) fun _ => .inl (by simpa using isNeeded)
  rw [meaning, get_set_of_ne _ (Ne.symm delivered), get_set_of_ne _ (Ne.symm delivered),
    atOffset_spoiled far, spoiled_get] at this
  exact absurd this (by decide)

theorem copied_spoiled (src dst : Int) (place : BitVec 64) :
    (copied (spoiled dst place) src).get spilltmpReg = 0 := by
  rw [copied, get_set, if_pos rfl, eval_spoiled]
  rfl

theorem copy_clear {src dst : Int} (exact_ : (copy src dst).Exact needed) :
    (copy src dst).Clear needed := by
  have near : InRange12 dst := by
    by_contra far
    obtain ⟨t, ran, sameMem, -⟩ := exact_ (spoiled dst 1)
    obtain rfl := Option.some.inj ((exec_copy _ src dst).symm.trans ran)
    have address : (atOffset (copied (spoiled dst 1) src) dst).get spilltmpReg = 1 := by
      rw [atOffset, if_neg far, far_address, copied_sp, spoiled_sp]
    have := congrFun sameMem 1
    rw [write_mem, meaning, write_mem, spoiled_sp, address, eval_spoiled, write_lowest _ _ .sd,
      write_lowest _ _ .sd] at this
    exact absurd this (by decide)
  refine ⟨near, ?_⟩
  by_contra isNeeded
  obtain ⟨t, ran, -, sameRegs⟩ := exact_ (spoiled dst 0)
  obtain rfl := Option.some.inj ((exec_copy _ src dst).symm.trans ran)
  have := sameRegs spilltmpReg (by decide) fun _ => .inl (by simpa using isNeeded)
  rw [write_get, meaning, write_get, atOffset, if_pos near, copied_spoiled, spoiled_get] at this
  exact absurd this (by decide)

theorem exact_iff {access : Access} (usable : access.Usable) :
    access.Exact needed ↔ access.Clear needed := by
  cases access with
  | move src dst => exact ⟨fun _ => trivial, fun _ => exact_move src dst⟩
  | store src op offset => exact ⟨store_clear, exact_store (usable src (.inl rfl))⟩
  | load dst op offset => exact ⟨load_clear, exact_load⟩
  | copy src dst => exact ⟨copy_clear, exact_copy⟩
  | address dst offset => exact ⟨fun _ => trivial, fun _ => exact_address dst offset⟩

/-! ### Immediates -/

theorem encodable_normalize (offset : Int) :
    (∀ inst ∈ (AMode.spOffset offset).normalizeImm12.2, inst.Encodable) ∧
      ∀ r, (∀ op, (MInst.loadWord r op (AMode.spOffset offset).normalizeImm12.1).Encodable) ∧
        ∀ op, (MInst.storeWord r op (AMode.spOffset offset).normalizeImm12.1).Encodable := by
  unfold AMode.normalizeImm12
  by_cases near : InRange12 offset
  · simp [AMode.offsetAndBase, near, MInst.Encodable]
  · have inRange : InRange12 0 := by decide
    simp [AMode.offsetAndBase, near, MInst.Encodable, inRange]

theorem encodable (access : Access) : ∀ inst ∈ access.code, inst.Encodable := by
  have storeEncodable (src : PReg) (op : StoreOP) (offset : Int) :
      ∀ inst ∈ (store src op offset).code, inst.Encodable := by
    obtain ⟨extras, last⟩ := encodable_normalize offset
    intro inst member
    rcases List.mem_append.mp member with isExtra | isLast
    · exact extras inst isExtra
    · exact List.mem_singleton.mp isLast ▸ (last src).2 op
  have loadEncodable (dst : PReg) (op : LoadOP) (offset : Int) :
      ∀ inst ∈ (load dst op offset).code, inst.Encodable := by
    obtain ⟨extras, last⟩ := encodable_normalize offset
    intro inst member
    rcases List.mem_append.mp member with isExtra | isLast
    · exact extras inst isExtra
    · exact List.mem_singleton.mp isLast ▸ (last dst).1 op
  cases access with
  | move src dst =>
    intro inst member
    obtain rfl := List.mem_singleton.mp member
    trivial
  | store src op offset => exact storeEncodable src op offset
  | load dst op offset => exact loadEncodable dst op offset
  | copy src dst =>
    intro inst member
    rcases List.mem_append.mp member with first | second
    · exact loadEncodable spilltmpReg .ld src inst first
    · exact storeEncodable spilltmpReg .sd dst inst second
  | address dst offset =>
    by_cases near : InRange12 offset
    · simp [code, legalizeInst, Imm12.fromI32, near, MInst.Encodable]
    · simp [code, legalizeInst, Imm12.fromI32, near, MInst.Encodable]

end Access

/-! ## Sequences of items -/

/-- The register an item takes its value from. -/
def Item.src : Item → Option PReg
  | .edit ⟨.reg src, _, _⟩ => some src
  | .inst (.storeWord rs _ _) => some rs
  | _ => none

def Item.dst : Item → Option PReg
  | .edit ⟨_, .reg dst, _⟩ => some dst
  | .inst (.loadWord rd _ _) | .inst (.stackAddr rd _) => some rd
  | _ => none

/-- Some item reads x31 before another one writes it. -/
def needsScratch : List Item → Bool
  | [] => false
  | item :: rest =>
    decide (item.src = some spilltmpReg) ||
      (decide (item.dst ≠ some spilltmpReg) && needsScratch rest)

/-- Every item is exact where it stands, and what it emits can be assembled. -/
def ExactItems (frame : FrameLayout) (items : List Item) : Prop :=
  ∀ before item after, items = before ++ item :: after →
    ∀ access, item.access frame = some access → access.Exact (needsScratch after) ∧
      ∀ code, item.expand frame = some code → ∀ inst ∈ code, inst.Encodable

/-- No item whose code goes through x31 stands between a move into it and the item that
reads it, or stores it. -/
def ClearItems (frame : FrameLayout) (items : List Item) : Prop :=
  ∀ before item after, items = before ++ item :: after →
    ∀ access, item.access frame = some access → access.Clear (needsScratch after)

variable {frame : FrameLayout} {item : Item} {items : List Item} {access : Access}

theorem Item.access_regs (isAccess : item.access frame = some access) :
    access.src = item.src ∧ access.dst = item.dst := by
  cases item with
  | inst pseudo =>
    cases pseudo with
    | stackAddr rd addr | loadWord rd op addr | storeWord rs op addr =>
      cases addr with
      | slotOffset offset =>
        cases isAccess
        exact ⟨rfl, rfl⟩
      | _ => cases isAccess
    | _ => cases isAccess
  | edit moved =>
    obtain ⟨src, dst, cls⟩ := moved
    cases src with
    | reg src =>
      cases dst with
      | reg dst =>
        cases isAccess
        exact ⟨rfl, rfl⟩
      | stack slot =>
        obtain ⟨offset, -, rfl⟩ := Option.map_eq_some_iff.mp isAccess
        exact ⟨rfl, rfl⟩
    | stack slot =>
      cases dst with
      | reg dst =>
        obtain ⟨offset, -, rfl⟩ := Option.map_eq_some_iff.mp isAccess
        exact ⟨rfl, rfl⟩
      | stack dst =>
        obtain ⟨srcOffset, -, isAccess⟩ := Option.bind_eq_some_iff.mp isAccess
        obtain ⟨dstOffset, -, rfl⟩ := Option.map_eq_some_iff.mp isAccess
        exact ⟨rfl, rfl⟩

theorem Item.Valid.usable (valid : item.Valid) (names : item.src = some r ∨ item.dst = some r) :
    r ∈ Riscv.usable := by
  cases item with
  | inst pseudo =>
    cases pseudo with
    | stackAddr rd addr | loadWord rd op addr | storeWord rs op addr =>
      cases addr with
      | slotOffset offset =>
        rcases names with isSrc | isDst
        · cases isSrc <;> exact valid.1
        · cases isDst <;> exact valid.1
      | _ => exact valid.elim
    | _ => exact valid.elim
  | edit moved =>
    obtain ⟨src, dst, cls⟩ := moved
    rcases names with isSrc | isDst
    · cases src with
      | reg src =>
        obtain rfl := Option.some.inj isSrc
        exact valid.1.1
      | stack slot => cases isSrc
    · cases dst with
      | reg dst =>
        obtain rfl : dst = r := by simpa [Item.dst] using isDst
        exact valid.2.1
      | stack slot => cases src <;> cases isDst

theorem Item.Valid.access_usable (valid : item.Valid) (isAccess : item.access frame = some access) :
    access.Usable := by
  intro r names
  rw [(Item.access_regs isAccess).1, (Item.access_regs isAccess).2] at names
  exact valid.usable names

/-! ### A run -/

/-- The states agree but for the scratch registers that hold nothing. -/
def Agree (needed : Bool) (m n : Machine) : Prop :=
  m.mem = n.mem ∧
    ∀ r, r ≠ spilltmpReg2 → (r = spilltmpReg → needed = true) → m.get r = n.get r

/-- The access reads what the states agree on. -/
theorem Access.meaning_agree {before : Bool} (isUsable : access.Usable) (agree : Agree before m n)
    (reads : access.src = some spilltmpReg → before = true)
    (keeps : access.dst ≠ some spilltmpReg → needed = true → before = true) :
    (access.meaning m).mem = (access.meaning n).mem ∧ ∀ r, r ≠ spilltmpReg2 →
      (r = spilltmpReg → needed = true ∨ access.dst = some spilltmpReg) →
        (access.meaning m).get r = (access.meaning n).get r := by
  obtain ⟨sameMem, sameRegs⟩ := agree
  have sameSp : m.sp = n.sp := sameRegs stackReg (by decide) fun isAddress =>
    absurd isAddress (by decide)
  have sameSrc : ∀ r, access.src = some r → m.get r = n.get r := fun r isSrc =>
    sameRegs r (usable_ne (isUsable r (.inl isSrc))).1 fun isAddress => reads (isAddress ▸ isSrc)
  have sameOther : ∀ r, access.dst ≠ some r → r ≠ spilltmpReg2 →
      (r = spilltmpReg → needed = true ∨ access.dst = some spilltmpReg) → m.get r = n.get r := by
    intro r notDst notOffset observed
    refine sameRegs r notOffset fun isAddress => ?_
    have notScratch : access.dst ≠ some spilltmpReg := isAddress ▸ notDst
    exact keeps notScratch ((observed isAddress).resolve_right notScratch)
  have setAgree (dst : PReg) (isDst : access.dst = some dst) (value : BitVec 64) :
      (m.set dst value).mem = (n.set dst value).mem ∧ ∀ r, r ≠ spilltmpReg2 →
        (r = spilltmpReg → needed = true ∨ access.dst = some spilltmpReg) →
          (m.set dst value).get r = (n.set dst value).get r := by
    refine ⟨by rw [set_mem, set_mem, sameMem], fun r notOffset observed => ?_⟩
    rw [get_set, get_set]
    split
    · rfl
    · next other =>
        refine sameOther r (fun isDst' => other ?_) notOffset observed
        exact (Option.some.inj (isDst.symm.trans isDst')).symm
  cases access with
  | move src dst =>
    rw [meaning, meaning, sameSrc src rfl]
    exact setAgree dst rfl _
  | store src op offset =>
    rw [meaning, meaning, sameSrc src rfl, sameSp]
    refine ⟨by rw [write_mem, write_mem, sameMem], fun r notOffset observed => ?_⟩
    rw [write_get, write_get]
    exact sameOther r nofun notOffset observed
  | load dst op offset =>
    rw [meaning, meaning, sameSp, sameMem]
    exact setAgree dst rfl _
  | copy src dst =>
    rw [meaning, meaning, sameSp, sameMem]
    refine ⟨by rw [write_mem, write_mem, sameMem], fun r notOffset observed => ?_⟩
    rw [write_get, write_get]
    exact sameOther r nofun notOffset observed
  | address dst offset =>
    rw [meaning, meaning, sameSp]
    exact setAgree dst rfl _

/-- Exact code, run from a state that agrees on what is needed, ends in such a state. -/
theorem exact_agree (isUsable : access.Usable) (exact_ : access.Exact needed)
    (agree : Agree (decide (access.src = some spilltmpReg) ||
      (decide (access.dst ≠ some spilltmpReg) && needed)) m n) :
    ∃ t, execCode m access.code = some t ∧ Agree needed t (access.meaning n) := by
  obtain ⟨t, ran, sameMem, sameRegs⟩ := exact_ m
  have keeps : access.dst ≠ some spilltmpReg → needed = true →
      (decide (access.src = some spilltmpReg) ||
        (decide (access.dst ≠ some spilltmpReg) && needed)) = true := fun notDst isNeeded => by
    simp [notDst, isNeeded]
  obtain ⟨meaningMem, meaningRegs⟩ :=
    Access.meaning_agree isUsable agree (fun isSrc => by simp [isSrc]) keeps
  refine ⟨t, ran, sameMem.trans meaningMem, fun r notOffset isNeeded => ?_⟩
  exact (sameRegs r notOffset fun isAddress => .inl (isNeeded isAddress)).trans
    (meaningRegs r notOffset fun isAddress => .inl (isNeeded isAddress))

/-- What the items ask for, one after the other. -/
def meanings (frame : FrameLayout) (items : List Item) (m : Machine) : Machine :=
  (items.filterMap (Item.access frame)).foldl Access.meaning m

theorem run_agree (valid : ∀ item ∈ items, item.Valid) (exact_ : ExactItems frame items)
    {code : List MInst} (emitted : finalizeForEmission frame items = some code)
    (agree : Agree (needsScratch items) m n) :
    ∃ t, execCode m code = some t ∧ Agree false t (meanings frame items n) := by
  induction items generalizing code m n with
  | nil =>
    cases emitted
    exact ⟨m, rfl, agree⟩
  | cons item items ih =>
    have isValid := valid item List.mem_cons_self
    obtain ⟨codes, isCodes, rfl⟩ := Option.map_eq_some_iff.mp emitted
    obtain ⟨first, isFirst, rest, isRest, rfl⟩ : ∃ first, item.expand frame = some first ∧
        ∃ rest, items.mapM (Item.expand frame) = some rest ∧ codes = first :: rest := by
      rw [List.mapM_cons] at isCodes
      obtain ⟨first, isFirst, isCodes⟩ := Option.bind_eq_some_iff.mp isCodes
      obtain ⟨rest, isRest, isCodes⟩ := Option.bind_eq_some_iff.mp isCodes
      exact ⟨first, isFirst, rest, isRest, (Option.some.inj isCodes).symm⟩
    rw [Item.expand_eq isValid] at isFirst
    obtain ⟨access, isAccess, rfl⟩ := Option.map_eq_some_iff.mp isFirst
    obtain ⟨src, dst⟩ := Item.access_regs isAccess
    rw [needsScratch, ← src, ← dst] at agree
    obtain ⟨t, ran, agree'⟩ := exact_agree (isValid.access_usable isAccess)
      (exact_ [] item items rfl access isAccess).1 agree
    obtain ⟨last, ranRest, agreeLast⟩ :=
      ih (fun i member => valid i (List.mem_cons_of_mem _ member))
      (fun before i after split => exact_ (item :: before) i after (by rw [split]; rfl))
      (Option.map_eq_some_iff.mpr ⟨rest, isRest, rfl⟩) agree'
    refine ⟨last, ?_, ?_⟩
    · rw [List.flatten_cons, execCode_append, ran, Option.bind_some, ranRest]
    · rw [meanings, List.filterMap_cons, isAccess]
      exact agreeLast

theorem exactItems_iff (valid : ∀ item ∈ items, item.Valid) :
    ExactItems frame items ↔ ClearItems frame items := by
  constructor
  · intro exact_ before item after split access isAccess
    have isValid := valid item (by simp [split])
    exact (Access.exact_iff (isValid.access_usable isAccess)).mp
      (exact_ before item after split access isAccess).1
  · intro clear before item after split access isAccess
    have isValid := valid item (by simp [split])
    refine ⟨(Access.exact_iff (isValid.access_usable isAccess)).mpr
      (clear before item after split access isAccess), fun code expanded => ?_⟩
    rw [Item.expand_eq isValid, isAccess] at expanded
    exact Option.some.inj expanded ▸ access.encodable

/-- Edits and frame pseudos move exactly their values, with encodable immediates, if and only
if they are clear; then the code of a whole block does what the items ask for. -/
theorem finalizeForEmission_exact_iff (frame : FrameLayout) (items : List Item)
    (valid : ∀ item ∈ items, item.Valid) :
    (ExactItems frame items ↔ ClearItems frame items) ∧
      (ClearItems frame items → ∀ code, finalizeForEmission frame items = some code →
        ∀ m, ∃ t, execCode m code = some t ∧ t.mem = (meanings frame items m).mem ∧
          ∀ r, r ≠ spilltmpReg2 → r ≠ spilltmpReg → t.get r = (meanings frame items m).get r) := by
  refine ⟨exactItems_iff valid, fun clear code emitted m => ?_⟩
  obtain ⟨t, ran, sameMem, sameRegs⟩ := run_agree valid ((exactItems_iff valid).mpr clear) emitted
    (m := m) (n := m) ⟨rfl, fun _ _ _ => rfl⟩
  exact ⟨t, ran, sameMem, fun r notOffset notAddress =>
    sameRegs r notOffset fun isAddress => absurd isAddress notAddress⟩

/-- The two edits that move a slot to another one. -/
def slotToSlot : List Item :=
  [.edit ⟨.stack 0, .reg spilltmpReg, .int⟩, .edit ⟨.reg spilltmpReg, .stack 1, .int⟩]

theorem slotToSlot_valid : ∀ item ∈ slotToSlot, item.Valid := by
  intro item member
  rcases List.mem_pair.mp member with rfl | rfl
  · exact ⟨trivial, by decide, rfl⟩
  · exact ⟨⟨by decide, rfl⟩, trivial⟩

theorem finalizeForEmission_exact_slotToSlot :
    (ExactItems ⟨16, 64, 0⟩ slotToSlot ↔ ClearItems ⟨16, 64, 0⟩ slotToSlot) ∧
      (ClearItems ⟨16, 64, 0⟩ slotToSlot →
        ∀ code, finalizeForEmission ⟨16, 64, 0⟩ slotToSlot = some code → ∀ m, ∃ t,
          execCode m code = some t ∧ t.mem = (meanings ⟨16, 64, 0⟩ slotToSlot m).mem ∧
          ∀ r, r ≠ spilltmpReg2 → r ≠ spilltmpReg →
            t.get r = (meanings ⟨16, 64, 0⟩ slotToSlot m).get r) :=
  finalizeForEmission_exact_iff ⟨16, 64, 0⟩ slotToSlot slotToSlot_valid

/-- Behind 2 KiB of stack slots the second edit stores the address of its slot. -/
theorem finalizeForEmission_stores_address :
    (∀ item ∈ slotToSlot, item.Valid) ∧ ¬ ExactItems ⟨16, 2048, 0⟩ slotToSlot ∧
      ∃ code, finalizeForEmission ⟨16, 2048, 0⟩ slotToSlot = some code ∧
        ∃ m t, execCode m code = some t ∧ t.mem 2056 = 8 ∧
          (meanings ⟨16, 2048, 0⟩ slotToSlot m).mem 2056 = 0 := by
  refine ⟨slotToSlot_valid, fun exact_ => ?_, _, rfl,
    ⟨fun _ => 0, fun _ => 0, fun _ => 0⟩, _, rfl, by decide, by decide⟩
  have stored := (exact_ [.edit ⟨.stack 0, .reg spilltmpReg, .int⟩]
    (.edit ⟨.reg spilltmpReg, .stack 1, .int⟩) [] rfl (.store spilltmpReg .sd 2056) rfl).1
  rcases Access.store_clear stored with near | ⟨notScratch, -⟩
  · exact absurd near (by decide)
  · exact notScratch rfl

end AnonCompiler.Riscv
