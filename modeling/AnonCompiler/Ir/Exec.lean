import AnonCompiler.Ir.Memory
import Mathlib.Data.BitVec

/-!
# Executing one instruction

`exec` gives the effect of an instruction in an activation: the value it
defines, a changed memory, a transfer of control, or a call that some machine
has to answer.  `none` is an execution without a meaning: a division by zero, an
access outside its object, a branch on an undefined value, an operand that has
not been computed.

Integers wrap.  Floating-point operations are a parameter, with nothing assumed
about them.
-/

set_option autoImplicit false

namespace AnonCompiler.Ir

/-! ## Arithmetic -/

def truth (b : Bool) : BitVec 32 := if b then 1 else 0

/-- The wrapping `i32` operations; shift amounts count modulo 32, and there is no
result of a division by zero. -/
def foldBinary (op : BinaryOp) (a b : BitVec 32) : Option (BitVec 32) :=
  match op with
  | .add => some (a + b)
  | .sub => some (a - b)
  | .mul => some (a * b)
  | .div => if b = 0 then none else some (a.sdiv b)
  | .rem => if b = 0 then none else some (a.srem b)
  | .notEq => some (truth (a != b))
  | .eq => some (truth (a == b))
  | .gt => some (truth (b.slt a))
  | .lt => some (truth (a.slt b))
  | .ge => some (truth (b.sle a))
  | .le => some (truth (a.sle b))
  | .and => some (a &&& b)
  | .or => some (a ||| b)
  | .xor => some (a ^^^ b)
  | .shl => some (a <<< (b.toNat % 32))
  | .shr => some (a >>> (b.toNat % 32))
  | .sar => some (a.sshiftRight (b.toNat % 32))
  | .min => some (if a.slt b then a else b)
  | .max => some (if a.slt b then b else a)

/-- The operations on the bit patterns of `f32`. -/
structure FloatOps where
  binary : BinaryOp → BitVec 32 → BitVec 32 → BitVec 32
  compare : BinaryOp → BitVec 32 → BitVec 32 → Bool
  fma : BitVec 32 → BitVec 32 → BitVec 32 → BitVec 32
  ofInt : BitVec 32 → BitVec 32
  toInt : BitVec 32 → BitVec 32

/-- One lane of a vector operation; a comparison gives a mask. -/
def FloatOps.lane (floats : FloatOps) (elem : Ty) (op : BinaryOp) (a b : BitVec 32) :
    Option (BitVec 32) :=
  if op.isCompare then
    if elem = .float32 then some (if floats.compare op a b then -1 else 0)
    else (foldBinary op a b).map fun bit => -bit
  else if elem = .float32 then some (floats.binary op a b)
  else foldBinary op a b

/-- The value is known not to be zero, in any lane. -/
def Val.nonzero : Val → Bool
  | .undef => false
  | .int value => value ≠ 0
  | .vec lanes => lanes.all (· ≠ 0)
  | _ => true

/-- Only a division by zero, or by a value that may be zero, has no result;
operands of the wrong shape give an undefined one. -/
def binaryVal (floats : FloatOps) (ty : Ty) (op : BinaryOp) (lhs rhs : Val) : Option Val :=
  match lhs, rhs with
  | .int a, .int b => (foldBinary op a b).map .int
  | .float a, .float b =>
    if op.isCompare then some (.int (truth (floats.compare op a b)))
    else some (.float (floats.binary op a b))
  | .vec a, .vec b =>
    match ty with
    | .vector elem _ =>
      if a.length = b.length then
        ((a.zip b).mapM fun pair => floats.lane elem op pair.1 pair.2).map .vec
      else if op.divides ∧ ¬ rhs.nonzero then none else some .undef
    | _ => if op.divides ∧ ¬ rhs.nonzero then none else some .undef
  | _, _ => if op.divides ∧ ¬ rhs.nonzero then none else some .undef

@[simp] theorem binaryVal_int (floats : FloatOps) (ty : Ty) (op : BinaryOp) (a b : BitVec 32) :
    binaryVal floats ty op (.int a) (.int b) = (foldBinary op a b).map .int := rfl

def castVal (floats : FloatOps) (ty : Ty) : Val → Val
  | .int a => if ty = .float32 then .float (floats.ofInt a) else .undef
  | .float a => if ty = .int32 then .int (floats.toInt a) else .undef
  | .vec lanes =>
    match ty with
    | .vector .float32 _ => .vec (lanes.map floats.ofInt)
    | .vector .int32 _ => .vec (lanes.map floats.toInt)
    | _ => .undef
  | _ => .undef

def fmaVal (floats : FloatOps) (ty : Ty) : Val → Val → Val → Val
  | .int acc, .int a, .int b => .int (acc + a * b)
  | .float acc, .float a, .float b => .float (floats.fma acc a b)
  | .vec acc, .vec a, .vec b =>
    match ty with
    | .vector .float32 _ =>
      .vec ((acc.zip (a.zip b)).map fun lane => floats.fma lane.1 lane.2.1 lane.2.2)
    | _ => .vec ((acc.zip (a.zip b)).map fun lane => lane.1 + lane.2.1 * lane.2.2)
  | _, _, _ => Val.undef

/-- A lane read or written as a scalar of the lane's type. -/
def laneVal (ty : Ty) (lane : BitVec 32) : Val :=
  if ty = .float32 then .float lane else .int lane

def laneBits : Val → Option (BitVec 32)
  | .int value => some value
  | .float bits => some bits
  | _ => none

/-- The byte offset of a `getElemPtr`: every index steps into the pointed-to or
element type and counts in units of its size. -/
def gepOffset : Ty → List Int → Option Int
  | _, [] => some 0
  | ty, index :: rest =>
    match ty.element with
    | some element => (gepOffset element rest).map fun off => index * element.size + off
    | none => none

def indexOf : Val → Option Int
  | .int value => some value.toInt
  | _ => none

def gepVal (baseTy : Ty) (base : Val) (indices : List Val) : Val :=
  match base, (indices.mapM indexOf).bind (gepOffset baseTy) with
  | .ptr pointer, some off => .ptr ⟨pointer.obj, pointer.off + off⟩
  | _, _ => .undef

def splatVal (ty : Ty) (v : Val) : Val :=
  match ty, laneBits v with
  | .vector _ lanes, some bits => .vec (List.replicate lanes bits)
  | _, _ => .undef

def extractVal (ty : Ty) : Val → Val → Val
  | .vec lanes, .int i => (lanes[i.toNat]?).elim .undef (laneVal ty)
  | _, _ => .undef

def insertVal : Val → Val → Val → Val
  | .vec lanes, v, .int i => (laneBits v).elim .undef fun bits => .vec (lanes.set i.toNat bits)
  | _, _, _ => .undef

def reduceVal : Val → Val
  | .vec lanes => .int lanes.sum
  | _ => .undef

def selectVal : Val → Val → Val → Val
  | .int value, ifTrue, ifFalse => if value ≠ 0 then ifTrue else ifFalse
  | _, _, _ => Val.undef

/-! ## Operands -/

def zeroBytes (count : Nat) : List MByte := List.replicate count (.byte 0)

def zeroVal : Ty → Val
  | .int32 => .int 0
  | .float32 => .float 0
  | .vector _ lanes => .vec (List.replicate lanes 0)
  | .array base len => .bytes (zeroBytes (Ty.array base len).size)
  | _ => Val.undef

/-- What is fixed while a program runs: its global instructions and the meaning
of floating point. -/
structure Ctx where
  floats : FloatOps
  globals : Inst → Option InstData

abbrev Env := Inst → Option Val

namespace Ctx

def instData (X : Ctx) (F : FunctionData) (inst : Inst) : Option InstData :=
  if inst.isGlobal then X.globals inst else F.insts inst

/-- The bytes of a constant, an aggregate element by element. -/
def constBytes (data : Inst → Option InstData) : Ty → Inst → Option (List MByte)
  | .array base len, inst =>
    match data inst with
    | some ⟨_, .aggregate value⟩ => (value.mapM (constBytes data base)).map List.flatten
    | some ⟨_, .zeroInit⟩ => some (zeroBytes (Ty.array base len).size)
    | some ⟨_, .undef⟩ => some (List.replicate (Ty.array base len).size .undef)
    | _ => none
  | ty, inst =>
    match data inst with
    | some ⟨_, .integer value⟩ => some (encode ty (.int value))
    | some ⟨_, .float bits⟩ => some (encode ty (.float bits))
    | some ⟨_, .zeroInit⟩ => some (encode ty (zeroVal ty))
    | some ⟨_, .undef⟩ => some (encode ty .undef)
    | _ => none

/-- The value of an instruction that is known without executing anything. -/
def constVal (X : Ctx) (F : FunctionData) (inst : Inst) (data : InstData) : Option Val :=
  match data.kind with
  | .undef => some .undef
  | .zeroInit => some (zeroVal data.ty)
  | .integer value => some (.int value)
  | .float bits => some (.float bits)
  | .globalAlloc _ => some (.ptr ⟨.global inst, 0⟩)
  | .aggregate _ => (constBytes (X.instData F) data.ty inst).map .bytes
  | _ => none

/-- The kinds whose value is known without executing anything. -/
def isConst : InstKind → Bool
  | .undef | .zeroInit | .integer _ | .float _ | .globalAlloc _ | .aggregate _ => true
  | _ => false

/-- The value of an operand: constants from the arena, the rest from the
environment. -/
def operand (X : Ctx) (F : FunctionData) (env : Env) (inst : Inst) : Option Val :=
  match X.instData F inst with
  | none => none
  | some data => if isConst data.kind then X.constVal F inst data else env inst

def operands (X : Ctx) (F : FunctionData) (env : Env) (insts : List Inst) : Option (List Val) :=
  insts.mapM (X.operand F env)

variable {X : Ctx} {F : FunctionData} {env : Env} {insts : List Inst} {vals : List Val}

/-- The value of the operand at a position. -/
theorem operands_getElem (h : X.operands F env insts = some vals) (i : Nat) :
    vals[i]? = (insts[i]?).bind (X.operand F env) := by
  induction insts generalizing vals i with
  | nil =>
    obtain rfl : [] = vals := by simpa [operands] using h
    simp
  | cons inst insts ih =>
    simp only [operands, List.mapM_cons, Option.bind_eq_bind, Option.bind_eq_some_iff,
      Option.pure_def, Option.some.injEq] at h
    obtain ⟨v, here, rest, later, rfl⟩ := h
    cases i with
    | zero => simp [here]
    | succ i => simpa using ih later i

theorem operands_length (h : X.operands F env insts = some vals) : vals.length = insts.length := by
  induction insts generalizing vals with
  | nil =>
    obtain rfl : [] = vals := by simpa [operands] using h
    rfl
  | cons inst insts ih =>
    simp only [operands, List.mapM_cons, Option.bind_eq_bind, Option.bind_eq_some_iff,
      Option.pure_def, Option.some.injEq] at h
    obtain ⟨v, here, rest, later, rfl⟩ := h
    simpa using ih later

/-- The value of an instruction that neither touches memory nor transfers
control. -/
def pureVal (X : Ctx) (F : FunctionData) (env : Env) (data : InstData) : Option Val :=
  match data.kind with
  | .binary op lhs rhs => do
      binaryVal X.floats data.ty op (← X.operand F env lhs) (← X.operand F env rhs)
  | .select cond ifTrue ifFalse => do
      some (selectVal (← X.operand F env cond) (← X.operand F env ifTrue)
        (← X.operand F env ifFalse))
  | .cast src => do some (castVal X.floats data.ty (← X.operand F env src))
  | .getElemPtr base offsets => do
      let baseData ← X.instData F base
      some (gepVal baseData.ty (← X.operand F env base) (← X.operands F env offsets))
  | .fma acc lhs rhs => do
      some (fmaVal X.floats data.ty (← X.operand F env acc) (← X.operand F env lhs)
        (← X.operand F env rhs))
  | .vectorSplat src => do some (splatVal data.ty (← X.operand F env src))
  | .vectorExtractElement src index => do
      some (extractVal data.ty (← X.operand F env src) (← X.operand F env index))
  | .vectorInsertElement vector element index => do
      some (insertVal (← X.operand F env vector) (← X.operand F env element)
        (← X.operand F env index))
  | .vectorReduce src => do some (reduceVal (← X.operand F env src))
  | _ => none

/-- The address an operand holds. -/
def address (X : Ctx) (F : FunctionData) (env : Env) (inst : Inst) : Option Ptr :=
  match X.operand F env inst with
  | some (.ptr pointer) => some pointer
  | _ => none

/-- The length of a `memZero`. -/
def zeroLength (X : Ctx) (F : FunctionData) (env : Env) : MemZeroLen → Option Nat
  | .const bytes => some bytes
  | .value inst =>
    match X.operand F env inst with
    | some (.int value) => if 0 ≤ value.toInt then some value.toNat else none
    | _ => none

end Ctx

/-! ## Effects -/

inductive Effect where
  | value (v : Val)
  | write (m : Mem)
  | goto (target : BasicBlock) (args : List Val)
  | call (callee : Function) (args : List Val)
  | tailCall (callee : Function) (args : List Val)
  | ret (value : Option Val)

/-- One activation of a function: its frame, the values computed so far and the
instructions of its block that are still to be executed. -/
structure Activation where
  func : Function
  frame : Nat
  env : Env
  block : BasicBlock
  rest : List Inst

/-- The effect of the instruction `inst` of `F`. -/
def exec (X : Ctx) (F : FunctionData) (a : Activation) (m : Mem) (inst : Inst) : Option Effect :=
  match F.insts inst with
  | none => none
  | some data =>
    match data.kind with
    | .jump target args => (X.operands F a.env args).map (.goto target)
    | .branch cond tTarget tArgs fTarget fArgs =>
      match X.operand F a.env cond with
      | some (.int value) =>
        if value ≠ 0 then (X.operands F a.env tArgs).map (.goto tTarget)
        else (X.operands F a.env fArgs).map (.goto fTarget)
      | _ => none
    | .ret none => some (.ret none)
    | .ret (some value) => (X.operand F a.env value).map fun v => .ret (some v)
    | .alloc => some (.value (.ptr ⟨.stack a.frame a.func inst, 0⟩))
    | .store src dest => do
        let v ← X.operand F a.env src
        let p ← X.address F a.env dest
        let srcData ← X.instData F src
        (m.write p (encode srcData.ty v)).map .write
    | .memZero dest byteLen => do
        let p ← X.address F a.env dest
        let count ← X.zeroLength F a.env byteLen
        (m.write p (zeroBytes count)).map .write
    | .load src => do
        let p ← X.address F a.env src
        (m.read p data.ty.size).map fun content => .value (decode data.ty content)
    | .call callee args => (X.operands F a.env args).map (.call callee)
    | .tailCall callee args => (X.operands F a.env args).map (.tailCall callee)
    | _ => (X.pureVal F a.env data).map fun v => .value (v.fit data.ty)

/-- All an instruction can do. -/
inductive Executes (X : Ctx) (F : FunctionData) (a : Activation) (m : Mem) (inst : Inst)
    (data : InstData) : Effect → Prop where
  | jump {target : BasicBlock} {args : List Inst} {vals : List Val}
      (kind : data.kind = .jump target args) (operands : X.operands F a.env args = some vals) :
      Executes X F a m inst data (.goto target vals)
  | branch {cond : Inst} {t e : BasicBlock} {tArgs fArgs : List Inst} {c : BitVec 32}
      {vals : List Val} (kind : data.kind = .branch cond t tArgs e fArgs)
      (decided : X.operand F a.env cond = some (.int c))
      (operands : X.operands F a.env (if c ≠ 0 then tArgs else fArgs) = some vals) :
      Executes X F a m inst data (.goto (if c ≠ 0 then t else e) vals)
  | retVoid (kind : data.kind = .ret none) : Executes X F a m inst data (.ret none)
  | ret {returned : Inst} {v : Val} (kind : data.kind = .ret (some returned))
      (operand : X.operand F a.env returned = some v) :
      Executes X F a m inst data (.ret (some v))
  | alloc (kind : data.kind = .alloc) :
      Executes X F a m inst data (.value (.ptr ⟨.stack a.frame a.func inst, 0⟩))
  | store {src dest : Inst} {v : Val} {p : Ptr} {srcData : InstData} {m₁ : Mem}
      (kind : data.kind = .store src dest) (operand : X.operand F a.env src = some v)
      (address : X.address F a.env dest = some p) (srcTy : X.instData F src = some srcData)
      (written : m.write p (encode srcData.ty v) = some m₁) :
      Executes X F a m inst data (.write m₁)
  | memZero {dest : Inst} {byteLen : MemZeroLen} {p : Ptr} {count : Nat} {m₁ : Mem}
      (kind : data.kind = .memZero dest byteLen) (address : X.address F a.env dest = some p)
      (length : X.zeroLength F a.env byteLen = some count)
      (written : m.write p (zeroBytes count) = some m₁) :
      Executes X F a m inst data (.write m₁)
  | load {src : Inst} {p : Ptr} {content : List MByte} (kind : data.kind = .load src)
      (address : X.address F a.env src = some p) (read : m.read p data.ty.size = some content) :
      Executes X F a m inst data (.value (decode data.ty content))
  | call {callee : Function} {args : List Inst} {vals : List Val}
      (kind : data.kind = .call callee args) (operands : X.operands F a.env args = some vals) :
      Executes X F a m inst data (.call callee vals)
  | tailCall {callee : Function} {args : List Inst} {vals : List Val}
      (kind : data.kind = .tailCall callee args) (operands : X.operands F a.env args = some vals) :
      Executes X F a m inst data (.tailCall callee vals)
  | pure {v : Val} (value : X.pureVal F a.env data = some v) :
      Executes X F a m inst data (.value (v.fit data.ty))

section Executes

variable {X : Ctx} {F : FunctionData} {a : Activation} {m m₁ : Mem} {inst : Inst}
  {data : InstData} {e : Effect}

theorem executes_of_exec (found : F.insts inst = some data) (h : exec X F a m inst = some e) :
    Executes X F a m inst data e := by
  obtain ⟨ty, kind⟩ := data
  cases kind
  case jump target args =>
      simp only [exec, found, Option.map_eq_some_iff] at h
      obtain ⟨vals, operands, rfl⟩ := h
      exact .jump rfl operands
  case branch cond t tArgs f fArgs =>
      simp only [exec, found] at h
      split at h
      · next c decided =>
          have whole : (X.operands F a.env (if c ≠ 0 then tArgs else fArgs)).map
              (Effect.goto (if c ≠ 0 then t else f)) = some e := by
            by_cases nonzero : c ≠ 0
            · rw [if_pos nonzero] at h
              rw [if_pos nonzero, if_pos nonzero]
              exact h
            · rw [if_neg nonzero] at h
              rw [if_neg nonzero, if_neg nonzero]
              exact h
          obtain ⟨vals, operands, rfl⟩ := Option.map_eq_some_iff.mp whole
          exact .branch rfl decided operands
      · cases h
  case ret value =>
      cases value with
      | none =>
        simp only [exec, found, Option.some.injEq] at h
        subst h
        exact .retVoid rfl
      | some returned =>
        simp only [exec, found, Option.map_eq_some_iff] at h
        obtain ⟨v, operand, rfl⟩ := h
        exact .ret rfl operand
  case alloc =>
      simp only [exec, found, Option.some.injEq] at h
      subst h
      exact .alloc rfl
  case store src dest =>
      simp only [exec, found, Option.bind_eq_bind, Option.bind_eq_some_iff,
        Option.map_eq_some_iff] at h
      obtain ⟨v, operand, p, address, d, srcTy, m₁, written, rfl⟩ := h
      exact .store rfl operand address srcTy written
  case memZero dest byteLen =>
      simp only [exec, found, Option.bind_eq_bind, Option.bind_eq_some_iff,
        Option.map_eq_some_iff] at h
      obtain ⟨p, address, count, length, m₁, written, rfl⟩ := h
      exact .memZero rfl address length written
  case load src =>
      simp only [exec, found, Option.bind_eq_bind, Option.bind_eq_some_iff,
        Option.map_eq_some_iff] at h
      obtain ⟨p, address, content, read, rfl⟩ := h
      exact .load rfl address read
  case call callee args =>
      simp only [exec, found, Option.map_eq_some_iff] at h
      obtain ⟨vals, operands, rfl⟩ := h
      exact .call rfl operands
  case tailCall callee args =>
      simp only [exec, found, Option.map_eq_some_iff] at h
      obtain ⟨vals, operands, rfl⟩ := h
      exact .tailCall rfl operands
  all_goals
    simp only [exec, found, Option.map_eq_some_iff] at h
    obtain ⟨v, value, rfl⟩ := h
    exact .pure value

theorem exec_isSome (h : exec X F a m inst = some e) : ∃ data, F.insts inst = some data := by
  cases found : F.insts inst with
  | none => simp [exec, found] at h
  | some data => exact ⟨data, rfl⟩

theorem exec_jump {ty : Ty} {target : BasicBlock} {args : List Inst}
    (found : F.insts inst = some ⟨ty, .jump target args⟩) :
    exec X F a m inst = some e ↔ ∃ vals, X.operands F a.env args = some vals ∧
      e = .goto target vals := by
  simp only [exec, found, Option.map_eq_some_iff]
  exact exists_congr fun vals => and_congr_right fun _ => eq_comm

theorem exec_branch {ty : Ty} {cond : Inst} {t f : BasicBlock} {tArgs fArgs : List Inst}
    (found : F.insts inst = some ⟨ty, .branch cond t tArgs f fArgs⟩) :
    exec X F a m inst = some e ↔ ∃ c vals, X.operand F a.env cond = some (.int c) ∧
      X.operands F a.env (if c ≠ 0 then tArgs else fArgs) = some vals ∧
      e = .goto (if c ≠ 0 then t else f) vals := by
  constructor
  · intro effect
    cases kind : executes_of_exec found effect with
    | @branch cond t f tArgs fArgs c vals isBranch decided operands =>
      cases isBranch
      exact ⟨c, vals, decided, operands, rfl⟩
    | jump isKind | retVoid isKind | ret isKind | alloc isKind | store isKind | memZero isKind
    | load isKind | call isKind | tailCall isKind => cases isKind
    | pure value => cases value
  · rintro ⟨c, vals, decided, operands, rfl⟩
    simp only [exec, found, decided]
    split <;> simp_all

/-- Writing allocates and frees nothing. -/
theorem exec_write_size (h : exec X F a m inst = some (.write m₁)) : m₁.size = m.size := by
  obtain ⟨data, found⟩ := exec_isSome h
  cases executes_of_exec found h with
  | store _ _ _ _ written | memZero _ _ _ written =>
    obtain ⟨-, rfl⟩ := Mem.write_eq_some.mp written
    rfl

end Executes

/-! ## Moving on -/

/-- Give values to the parameters of a block, all at once. -/
def bindParams (F : FunctionData) (env : Env) : List Inst → List Val → Env
  | param :: params, v :: vals =>
    Function.update (bindParams F env params vals) param
      ((F.insts param).map fun data => v.fit data.ty)
  | _, _ => env

namespace Activation

/-- Define the value of the current instruction and go to the next one. -/
def define (a : Activation) (inst : Inst) (v : Val) : Activation :=
  { a with env := Function.update a.env inst (some v), rest := a.rest.tail }

theorem define_env_of_ne {a : Activation} {inst x : Inst} (differ : x ≠ inst) (v : Val) :
    (a.define inst v).env x = a.env x := Function.update_of_ne differ _ _

def next (a : Activation) : Activation := { a with rest := a.rest.tail }

/-- Enter a block: there have to be as many arguments as parameters. -/
def enterBlock (F : FunctionData) (a : Activation) (target : BasicBlock) (args : List Val) :
    Option Activation :=
  if args.length = (F.blockParams target).length then
    (F.blockInsts target).map fun insts =>
      { a with env := bindParams F a.env (F.blockParams target) args
               block := target, rest := insts }
  else none

/-- A new activation of a function at its entry block. -/
def start (F : FunctionData) (func : Function) (frame : Nat) (args : List Val) :
    Option Activation :=
  F.entryBlock.bind fun entry =>
    enterBlock F { func, frame, env := fun _ => none, block := entry, rest := [] } entry args

variable {F : FunctionData} {a a' : Activation}

theorem enterBlock_eq_some {target : BasicBlock} {args : List Val} :
    a.enterBlock F target args = some a' ↔ args.length = (F.blockParams target).length ∧
      ∃ insts, F.blockInsts target = some insts ∧
        a' = { a with env := bindParams F a.env (F.blockParams target) args
                      block := target, rest := insts } := by
  unfold enterBlock
  split
  · next same => simp [same, eq_comm]
  · next differ => simp [differ]

theorem start_eq_some {func : Function} {frame : Nat} {args : List Val} :
    start F func frame args = some a ↔ ∃ entry insts, F.entryBlock = some entry ∧
      args.length = (F.blockParams entry).length ∧ F.blockInsts entry = some insts ∧
        a = { func, frame, env := bindParams F (fun _ => none) (F.blockParams entry) args
              block := entry, rest := insts } := by
  simp only [start, Option.bind_eq_some_iff, enterBlock_eq_some]
  constructor
  · rintro ⟨entry, isEntry, same, insts, block, rfl⟩
    exact ⟨entry, insts, isEntry, same, block, rfl⟩
  · rintro ⟨entry, insts, isEntry, same, block, rfl⟩
    exact ⟨entry, isEntry, same, insts, block, rfl⟩

end Activation

/-! ## Executing the same instruction elsewhere -/

/-- An operand has the same value and the same type in two functions. -/
structure Ctx.SameOperand (X : Ctx) (F F' : FunctionData) (env env' : Env)
    (inst : Inst) : Prop where
  value : X.operand F' env' inst = X.operand F env inst
  ty : (X.instData F' inst).map InstData.ty = (X.instData F inst).map InstData.ty

section Congr

variable {X : Ctx} {F F' : FunctionData} {env env' : Env} {a a' : Activation} {m : Mem}
    {inst : Inst}
  {data : InstData}

/-- No instruction, or one whose value is not known. -/
def Ctx.Unknown (d : Option InstData) : Prop := ∀ data, d = some data → isConst data.kind = false

/-- The arenas differ only in instructions whose value is not known. -/
def SameConsts (F F' : FunctionData) : Prop :=
  ∀ inst, F'.insts inst = F.insts inst ∨ Ctx.Unknown (F.insts inst) ∧ Ctx.Unknown (F'.insts inst)

variable {table table' : Inst → Option InstData} {x : Inst}

theorem Ctx.constBytes_unknown {inst : Inst} (ty : Ty) (unknown : Unknown (table inst)) :
    constBytes table ty inst = none := by
  cases found : table inst with
  | none => cases ty <;> simp [constBytes, found]
  | some data =>
    have notConst := unknown data found
    obtain ⟨dataTy, kind⟩ := data
    cases kind <;> first
      | cases notConst; done
      | (cases ty <;> simp [constBytes, found])

/-- The bytes of a constant depend on constants only. -/
theorem Ctx.constBytes_congr
    (same : ∀ x, table' x = table x ∨ Unknown (table x) ∧ Unknown (table' x)) (ty : Ty) :
    ∀ inst, constBytes table' ty inst = constBytes table ty inst := by
  induction ty with
  | array base len ih =>
    intro inst
    rcases same inst with eq | ⟨unknown, unknown'⟩
    · have elements : constBytes table' base = constBytes table base := funext ih
      simp only [constBytes, eq, elements]
    · rw [constBytes_unknown _ unknown, constBytes_unknown _ unknown']
  | _ =>
    intro inst
    rcases same inst with eq | ⟨unknown, unknown'⟩
    · simp only [constBytes, eq]
    · rw [constBytes_unknown _ unknown, constBytes_unknown _ unknown']

theorem SameConsts.instData (consts : SameConsts F F') (X : Ctx) (inst : Inst) :
    X.instData F' inst = X.instData F inst ∨
      Ctx.Unknown (X.instData F inst) ∧ Ctx.Unknown (X.instData F' inst) := by
  unfold Ctx.instData
  split
  · exact .inl rfl
  · exact consts inst

/-- An operand of the same type whose value has not changed, in a function with the
same constants. -/
theorem SameConsts.sameOperand (consts : SameConsts F F')
    (ty : (X.instData F' inst).map InstData.ty = (X.instData F inst).map InstData.ty)
    (same : env' inst = env inst) : X.SameOperand F F' env env' inst := by
  refine ⟨?_, ty⟩
  rcases consts.instData X inst with eq | ⟨unknown, unknown'⟩
  · have bytes : ∀ ty, Ctx.constBytes (X.instData F') ty inst =
        Ctx.constBytes (X.instData F) ty inst :=
      fun ty => Ctx.constBytes_congr (consts.instData X) ty inst
    simp only [Ctx.operand, Ctx.constVal, eq, same, bytes]
  · cases found : X.instData F inst with
    | none =>
      rw [found, Option.map_none, Option.map_eq_none_iff] at ty
      simp [Ctx.operand, found, ty]
    | some data =>
      obtain ⟨data', found', -⟩ := Option.map_eq_some_iff.mp (found ▸ ty)
      simp [Ctx.operand, found, found', unknown data found, unknown' data' found', same]

theorem Ctx.operands_congr {insts : List Inst}
    (same : ∀ inst ∈ insts, X.operand F' env' inst = X.operand F env inst) :
    X.operands F' env' insts = X.operands F env insts := by
  induction insts with
  | nil => rfl
  | cons first rest ih =>
    have later := ih fun inst member => same inst (List.mem_cons_of_mem _ member)
    simp only [operands] at later
    simp only [operands, List.mapM_cons, later, same first (List.mem_cons_self ..)]

/-- The operand `x'` has in the second function the value and the type that `x` has in
the first. -/
structure Ctx.Carries (X : Ctx) (F F' : FunctionData) (env env' : Env) (x x' : Inst) : Prop where
  value : ∀ {v}, X.operand F env x = some v → X.operand F' env' x' = some v
  ty : ∀ {data}, X.instData F x = some data → ∃ data', X.instData F' x' = some data' ∧
    data'.ty = data.ty

theorem Ctx.SameOperand.carries (same : X.SameOperand F F' env env' inst) :
    X.Carries F F' env env' inst inst := by
  refine ⟨fun value => same.value.trans value, fun {data} found => ?_⟩
  have sameTy := same.ty
  rw [found, Option.map_some] at sameTy
  exact Option.map_eq_some_iff.mp sameTy

/-- The second arena has the constants of the first, and something of the same type in
place of every other instruction. -/
def KeepsArena (F F' : FunctionData) : Prop :=
  ∀ {x data}, F.insts x = some data → ∃ data', F'.insts x = some data' ∧ data'.ty = data.ty ∧
    (Ctx.isConst data.kind = true → data' = data) ∧
    (Ctx.isConst data.kind = false → Ctx.isConst data'.kind = false)

/-- More constants do not change the bytes of a constant. -/
theorem Ctx.constBytes_mono
    (keeps : ∀ {x data}, table x = some data → isConst data.kind = true → table' x = some data)
    (ty : Ty) :
    ∀ {inst bytes}, constBytes table ty inst = some bytes →
      constBytes table' ty inst = some bytes := by
  have known : ∀ {ty inst bytes}, constBytes table ty inst = some bytes →
      ∃ data, table inst = some data ∧ isConst data.kind = true := by
    intro ty inst bytes isBytes
    by_contra none
    refine Option.some_ne_none bytes (isBytes.symm.trans (constBytes_unknown ty ?_))
    intro data found
    exact Bool.eq_false_iff.mpr fun isConst => none ⟨data, found, isConst⟩
  induction ty with
  | array base len ih =>
    intro inst bytes isBytes
    obtain ⟨data, found, isConst⟩ := known isBytes
    obtain ⟨dataTy, kind⟩ := data
    simp only [constBytes, found] at isBytes
    simp only [constBytes, keeps found isConst]
    cases kind with
    | aggregate value =>
      obtain ⟨lists, isLists, rfl⟩ := Option.map_eq_some_iff.mp isBytes
      have mapped : value.mapM (constBytes table' base) = some lists := by
        clear found isConst isBytes
        induction value generalizing lists with
        | nil => exact isLists
        | cons first value ihValue =>
          simp only [List.mapM_cons, Option.bind_eq_bind, Option.bind_eq_some_iff, Option.pure_def,
            Option.some.injEq] at isLists
          obtain ⟨list, isList, rest, isRest, rfl⟩ := isLists
          simp [List.mapM_cons, ih isList, ihValue rest isRest]
      simp [mapped]
    | _ => exact isBytes
  | _ =>
    intro inst bytes isBytes
    obtain ⟨data, found, isConst⟩ := known isBytes
    simp only [constBytes, found] at isBytes
    simp only [constBytes, keeps found isConst]
    exact isBytes

theorem KeepsArena.instData (keeps : KeepsArena F F') (X : Ctx) {data : InstData}
    (found : X.instData F x = some data) : ∃ data', X.instData F' x = some data' ∧
      data'.ty = data.ty ∧ (Ctx.isConst data.kind = true → data' = data) ∧
      (Ctx.isConst data.kind = false → Ctx.isConst data'.kind = false) := by
  unfold Ctx.instData at *
  split at found
  · next isGlobal =>
      rw [if_pos isGlobal]
      exact ⟨data, found, rfl, fun _ => rfl, fun notConst => notConst⟩
  · next isLocal =>
      rw [if_neg isLocal]
      exact keeps found

theorem KeepsArena.constVal (keeps : KeepsArena F F') {data : InstData} {v : Val}
    (isV : X.constVal F x data = some v) : X.constVal F' x data = some v := by
  obtain ⟨ty, kind⟩ := data
  cases kind with
  | aggregate value =>
    obtain ⟨bytes, isBytes, rfl⟩ := Option.map_eq_some_iff.mp isV
    have table : ∀ {x data}, X.instData F x = some data → Ctx.isConst data.kind = true →
        X.instData F' x = some data := by
      intro x data found isConst
      obtain ⟨data', found', -, sameData, -⟩ := keeps.instData X found
      rw [found', sameData isConst]
    have bytes' := Ctx.constBytes_mono table ty isBytes
    rw [Ctx.constVal, bytes']
    rfl
  | _ => exact isV

/-- An operand whose value has not changed. -/
theorem KeepsArena.carries (keeps : KeepsArena F F')
    (same : ∀ {data}, X.instData F x = some data → Ctx.isConst data.kind = false → env' x = env x) :
    X.Carries F F' env env' x x := by
  refine ⟨?_, ?_⟩
  · intro v isV
    unfold Ctx.operand at isV
    split at isV
    · cases isV
    · next data found =>
        obtain ⟨data', found', -, sameData, notConst'⟩ := keeps.instData X found
        rw [Ctx.operand, found']
        split at isV
        · next isConst =>
            obtain rfl := sameData isConst
            dsimp only
            rw [if_pos isConst]
            exact keeps.constVal isV
        · next notConst =>
            have isFalse := Bool.eq_false_iff.mpr notConst
            dsimp only
            rw [notConst' isFalse, same found isFalse]
            exact isV
  · intro data found
    obtain ⟨data', found', sameTy, -⟩ := keeps.instData X found
    exact ⟨data', found', sameTy⟩

/-- An effect with another target. -/
def Effect.retarget (mapBlock : BasicBlock → BasicBlock) : Effect → Effect
  | .goto target args => .goto (mapBlock target) args
  | e => e

theorem Effect.retarget_id (e : Effect) : e.retarget id = e := by
  cases e <;> rfl

section Remap

variable (mapInst : Inst → Inst) (mapBlock : BasicBlock → BasicBlock)

theorem Ctx.operands_remap {insts : List Inst} {vals : List Val}
    (same : ∀ x ∈ insts, X.Carries F F' env env' x (mapInst x))
    (h : X.operands F env insts = some vals) :
    X.operands F' env' (insts.map mapInst) = some vals := by
  induction insts generalizing vals with
  | nil => exact h
  | cons first rest ih =>
    simp only [operands, List.mapM_cons, Option.bind_eq_bind, Option.bind_eq_some_iff,
      Option.pure_def, Option.some.injEq] at h
    obtain ⟨v, here, vals, later, rfl⟩ := h
    have later' := ih (fun x member => same x (List.mem_cons_of_mem _ member)) later
    simp only [operands] at later'
    simp [operands, List.mapM_cons, later', (same first (List.mem_cons_self ..)).value here]

theorem Ctx.address_remap {x x' : Inst} {p : Ptr} (same : X.Carries F F' env env' x x')
    (h : X.address F env x = some p) : X.address F' env' x' = some p := by
  unfold address at h
  split at h
  · next pointer isPointer =>
      obtain rfl := Option.some.inj h
      rw [address, same.value isPointer]
  · cases h

/-- An instruction with other operands that have the same values computes the same. -/
theorem Ctx.pureVal_remap (ty : Ty) {kind : InstKind} {v : Val}
    (same : ∀ x ∈ kind.instUsage, X.Carries F F' env env' x (mapInst x))
    (h : X.pureVal F env ⟨ty, kind⟩ = some v) :
    X.pureVal F' env' ⟨ty, kind.remapRefs mapInst mapBlock⟩ = some v := by
  have value : ∀ {x w}, x ∈ kind.instUsage → X.operand F env x = some w →
      X.operand F' env' (mapInst x) = some w := fun used => (same _ used).value
  cases kind with
  | binary | vectorExtractElement =>
    simp only [pureVal, Option.bind_eq_bind, Option.bind_eq_some_iff] at h
    obtain ⟨a, isA, b, isB, isV⟩ := h
    simp [pureVal, InstKind.remapRefs, value (by simp [InstKind.instUsage]) isA,
      value (by simp [InstKind.instUsage]) isB, isV]
  | select | fma | vectorInsertElement =>
    simp only [pureVal, Option.bind_eq_bind, Option.bind_eq_some_iff] at h
    obtain ⟨a, isA, b, isB, c, isC, isV⟩ := h
    simp [pureVal, InstKind.remapRefs, value (by simp [InstKind.instUsage]) isA,
      value (by simp [InstKind.instUsage]) isB, value (by simp [InstKind.instUsage]) isC, isV]
  | getElemPtr base offsets =>
    simp only [pureVal, Option.bind_eq_bind, Option.bind_eq_some_iff] at h
    obtain ⟨baseData, isData, b, isBase, vals, isVals, isV⟩ := h
    obtain ⟨data', isData', sameTy⟩ := (same base (by simp [InstKind.instUsage])).ty isData
    have offsets' :=
      operands_remap mapInst (fun x member => same x (by simp [InstKind.instUsage, member]))
      isVals
    simp [pureVal, InstKind.remapRefs, isData', sameTy,
      value (by simp [InstKind.instUsage]) isBase, offsets', isV]
  | cast src | vectorSplat src | vectorReduce src =>
    simp only [pureVal, Option.bind_eq_bind, Option.bind_eq_some_iff] at h
    obtain ⟨a, isA, isV⟩ := h
    simp [pureVal, InstKind.remapRefs, value (by simp [InstKind.instUsage]) isA, isV]
  | _ => cases h

/-- An instruction with other operands that have the same values has the same effect,
up to the target. -/
theorem exec_remap {ty : Ty} {kind : InstKind} {inst' : Inst} {e : Effect}
    (found : F.insts inst = some ⟨ty, kind⟩)
    (found' : F'.insts inst' = some ⟨ty, kind.remapRefs mapInst mapBlock⟩)
    (alloc : kind = .alloc → inst' = inst ∧ a'.func = a.func ∧ a'.frame = a.frame)
    (same : ∀ x ∈ kind.instUsage, X.Carries F F' a.env a'.env x (mapInst x))
    (effect : exec X F a m inst = some e) : exec X F' a' m inst' = some (e.retarget mapBlock) := by
  have whole : ∀ {insts vals}, (∀ x ∈ insts, x ∈ kind.instUsage) →
    X.operands F a.env insts = some vals →
      X.operands F' a'.env (insts.map mapInst) = some vals := fun inside =>
    Ctx.operands_remap mapInst fun x member => same x (inside x member)
  cases executes_of_exec found effect with
  | jump isKind operands | call isKind operands | tailCall isKind operands =>
    cases isKind
    simp [exec, found', InstKind.remapRefs, whole (by simp [InstKind.instUsage]) operands,
      Effect.retarget]
  | @branch cond t f tArgs fArgs c vals isKind decided operands =>
    cases isKind
    have decided' := (same cond (by simp [InstKind.instUsage])).value decided
    have arm : ∀ {args vals}, (∀ x ∈ args, x ∈ tArgs ++ fArgs) →
      X.operands F a.env args = some vals →
        X.operands F' a'.env (args.map mapInst) = some vals := fun inside =>
      whole fun x member => List.mem_cons_of_mem _ (inside x member)
    refine (exec_branch found').mpr ⟨c, vals, decided', ?_, ?_⟩
    · by_cases taken : c ≠ 0
      · rw [if_pos taken] at operands ⊢
        exact arm (by simp +contextual) operands
      · rw [if_neg taken] at operands ⊢
        exact arm (by simp +contextual) operands
    · by_cases taken : c ≠ 0
      · rw [if_pos taken, if_pos taken]
        rfl
      · rw [if_neg taken, if_neg taken]
        rfl
  | retVoid isKind =>
    cases isKind
    simp [exec, found', InstKind.remapRefs, Effect.retarget]
  | @ret returned v isKind operand =>
    cases isKind
    simp [exec, found', InstKind.remapRefs,
      (same returned (by simp [InstKind.instUsage])).value operand, Effect.retarget]
  | alloc isKind =>
    cases isKind
    obtain ⟨rfl, func, frame⟩ := alloc rfl
    simp [exec, found', InstKind.remapRefs, func, frame, Effect.retarget]
  | @store src dest v p srcData m₁ isKind operand address srcTy written =>
    cases isKind
    obtain ⟨data', isData', sameTy⟩ := (same src (by simp [InstKind.instUsage])).ty srcTy
    simp [exec, found', InstKind.remapRefs, (same src (by simp [InstKind.instUsage])).value operand,
      Ctx.address_remap (same dest (by simp [InstKind.instUsage])) address, isData', sameTy,
      written, Effect.retarget]
  | @memZero dest byteLen p count m₁ isKind address length written =>
    cases isKind
    cases byteLen with
    | const bytes =>
      obtain rfl := Option.some.inj length
      simp [exec, found', InstKind.remapRefs, Ctx.zeroLength, written, Effect.retarget,
        Ctx.address_remap (same dest (by simp [InstKind.instUsage])) address]
    | value len =>
      have length' : X.zeroLength F' a'.env (.value (mapInst len)) = some count := by
        rw [Ctx.zeroLength] at length ⊢
        split at length
        · next k isInt =>
            rw [(same len (by simp [InstKind.instUsage])).value isInt]
            exact length
        · cases length
      simp [exec, found', InstKind.remapRefs, length', written, Effect.retarget,
        Ctx.address_remap (same dest (by simp [InstKind.instUsage])) address]
  | @load src p content isKind address read =>
    dsimp only at isKind read
    subst isKind
    simp [exec, found', InstKind.remapRefs, read, Effect.retarget,
      Ctx.address_remap (same src (by simp [InstKind.instUsage])) address]
  | @pure v value =>
    have value' := Ctx.pureVal_remap mapInst mapBlock ty same value
    cases kind <;> first
      | cases value
      | (simp only [InstKind.remapRefs] at found' value'
         simp [exec, found', value', Effect.retarget])

end Remap

theorem Ctx.pureVal_congr
    (same : ∀ x ∈ data.kind.instUsage, X.Carries F F' env env' x x ∧ X.Carries F' F env' env x x) :
    X.pureVal F' env' data = X.pureVal F env data := by
  refine Option.ext fun v => ⟨fun h => ?_, fun h => ?_⟩
  · have mapped := pureVal_remap id id data.ty (fun x used => (same x used).2) h
    rwa [InstKind.remapRefs_id] at mapped
  · have mapped := pureVal_remap id id data.ty (fun x used => (same x used).1) h
    rwa [InstKind.remapRefs_id] at mapped

/-- An instruction whose operands have the same values has the same effect. -/
theorem exec_congr {e : Effect} (found : F.insts inst = some data)
    (found' : F'.insts inst = some data) (func : a'.func = a.func) (frame : a'.frame = a.frame)
    (same : ∀ x ∈ data.kind.instUsage, X.Carries F F' a.env a'.env x x)
    (effect : exec X F a m inst = some e) : exec X F' a' m inst = some e := by
  have mapped := exec_remap id id found (by rw [InstKind.remapRefs_id]; exact found')
    (fun _ => ⟨rfl, func, frame⟩) same effect
  rwa [Effect.retarget_id] at mapped

end Congr

end AnonCompiler.Ir
