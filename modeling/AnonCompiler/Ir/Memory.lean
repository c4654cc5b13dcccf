import AnonCompiler.Ir.Syntax
import Mathlib.Tactic

/-!
# Values and memory

Memory is a set of objects, each a row of bytes: one object for every global and
one for every `alloc` of every activation of a function.  A byte is undefined,
a number, or one of the eight parts of a pointer, so a pointer can be stored and
loaded but not computed from integers.  An access outside its object has no
result.

Values carry their shape.  A value whose shape is not that of the type it is
read or stored at counts as undefined (`Val.fit`).
-/

set_option autoImplicit false

namespace AnonCompiler.Ir

/-- A memory object: a global, or an `alloc` of one activation. -/
inductive Obj where
  | global (inst : Inst)
  | stack (frame : Nat) (func : Function) (inst : Inst)
deriving DecidableEq, Repr

/-- An address: an object and a byte offset into it. -/
structure Ptr where
  obj : Obj
  off : Int
deriving DecidableEq, Repr

inductive MByte where
  | undef
  | byte (value : BitVec 8)
  | fragment (pointer : Ptr) (index : Nat)
deriving DecidableEq, Repr

inductive Val where
  | undef
  | int (value : BitVec 32)
  | float (bits : BitVec 32)
  | ptr (pointer : Ptr)
  | vec (lanes : List (BitVec 32))
  | bytes (content : List MByte)
deriving DecidableEq, Repr

/-- A value of the given type has the shape of the type, or is undefined. -/
def Val.HasTy (ty : Ty) : Val → Prop
  | .undef => True
  | .int _ => ty = .int32
  | .float _ => ty = .float32
  | .ptr _ => ty.isPointer = true
  | .vec lanes => ∃ elem, ty = .vector elem lanes.length ∧ elem.size = 4
  | .bytes content => ∃ base len, ty = .array base len ∧ content.length = ty.size

/-- The value as seen at a type. -/
def Val.fit (ty : Ty) (v : Val) : Val :=
  match ty, v with
  | .int32, .int value => .int value
  | .float32, .float bits => .float bits
  | .pointer _, .ptr pointer => .ptr pointer
  | .vector elem lanes, .vec content =>
    if content.length = lanes ∧ elem.size = 4 then .vec content else .undef
  | .array base len, .bytes content =>
    if content.length = (Ty.array base len).size then .bytes content else .undef
  | _, _ => .undef

variable {ty : Ty} {v : Val}

theorem Val.fit_hasTy (ty : Ty) (v : Val) : (v.fit ty).HasTy ty := by
  unfold Val.fit
  split
  · exact rfl
  · exact rfl
  · exact rfl
  · split
    · next shape => exact ⟨_, by rw [shape.1], shape.2⟩
    · exact trivial
  · split
    · next shape => exact ⟨_, _, rfl, shape⟩
    · exact trivial
  · exact trivial

theorem Val.fit_eq_self (shaped : v.HasTy ty) : v.fit ty = v := by
  cases v with
  | undef => cases ty <;> rfl
  | int value =>
    obtain rfl : ty = .int32 := shaped
    rfl
  | float bits =>
    obtain rfl : ty = .float32 := shaped
    rfl
  | ptr pointer =>
    cases ty with
    | pointer base => rfl
    | _ => simp [Val.HasTy, Ty.isPointer] at shaped
  | vec lanes =>
    obtain ⟨elem, rfl, size⟩ := shaped
    simp [Val.fit, size]
  | bytes content =>
    obtain ⟨base, len, rfl, size⟩ := shaped
    simp [Val.fit, size]

theorem Val.fit_eq_int {k : BitVec 32} (h : v.fit ty = .int k) : v = .int k := by
  unfold Val.fit at h
  split at h
  · exact h
  · cases h
  · cases h
  · split at h <;> cases h
  · split at h <;> cases h
  · cases h

/-! ## Bytes of a value -/

/-- The four bytes of a word, the lowest first. -/
def wordBytes (v : BitVec 32) : List MByte :=
  (List.range 4).map fun i => .byte (BitVec.ofNat 8 (v.toNat / 256 ^ i))

/-- The word of four bytes, the lowest first. -/
def wordOf : List MByte → Option (BitVec 32)
  | [.byte a, .byte b, .byte c, .byte d] =>
    some (BitVec.ofNat 32 (a.toNat + 256 * (b.toNat + 256 * (c.toNat + 256 * d.toNat))))
  | _ => none

/-- The words of a row of bytes. -/
def wordsOf : Nat → List MByte → Option (List (BitVec 32))
  | 0, [] => some []
  | 0, _ => none
  | count + 1, content =>
    (wordOf (content.take 4)).bind fun first =>
      (wordsOf count (content.drop 4)).map fun rest => first :: rest

/-- The eight parts of a pointer. -/
def pointerBytes (pointer : Ptr) : List MByte :=
  (List.range pointerSize).map fun i => .fragment pointer i

def pointerOf : List MByte → Option Ptr
  | .fragment pointer i :: rest =>
    if .fragment pointer i :: rest = pointerBytes pointer then some pointer else none
  | _ => none

theorem pointerOf_pointerBytes (pointer : Ptr) : pointerOf
    (pointerBytes pointer) = some pointer := by
  simp [pointerBytes, pointerSize, List.range, List.range.loop, pointerOf]

/-- The bytes written when a value is stored at a type. -/
def encode (ty : Ty) (v : Val) : List MByte :=
  match v.fit ty with
  | .undef => List.replicate ty.size .undef
  | .int value => wordBytes value
  | .float bits => wordBytes bits
  | .ptr pointer => pointerBytes pointer
  | .vec lanes => lanes.flatMap wordBytes
  | .bytes content => content

/-- The value read from bytes at a type. -/
def decode (ty : Ty) (content : List MByte) : Val :=
  match ty with
  | .int32 => (wordOf content).elim .undef .int
  | .float32 => (wordOf content).elim .undef .float
  | .pointer _ => (pointerOf content).elim .undef .ptr
  | .vector elem lanes =>
    if elem.size = 4 then (wordsOf lanes content).elim .undef .vec else .undef
  | .array base len => if content.length = (Ty.array base len).size then .bytes content else .undef
  | _ => .undef

theorem encode_length (ty : Ty) (v : Val) : (encode ty v).length = ty.size := by
  have shaped := v.fit_hasTy ty
  unfold encode
  cases shape : v.fit ty with
  | undef => simp
  | int value =>
    rw [shape] at shaped
    obtain rfl : ty = .int32 := shaped
    rfl
  | float bits =>
    rw [shape] at shaped
    obtain rfl : ty = .float32 := shaped
    rfl
  | ptr pointer =>
    rw [shape] at shaped
    cases ty with
    | pointer base => rfl
    | _ => simp [Val.HasTy, Ty.isPointer] at shaped
  | vec lanes =>
    rw [shape] at shaped
    obtain ⟨elem, rfl, size⟩ := shaped
    have : (lanes.flatMap wordBytes).length = 4 * lanes.length := by
      induction lanes with
      | nil => rfl
      | cons first rest ih =>
        have four : (wordBytes first).length = 4 := rfl
        simp only [List.flatMap_cons, List.length_append, four, List.length_cons]
        rw [List.length_flatMap]
        simp only [wordBytes, List.length_map, List.length_range, List.map_const',
          List.sum_replicate, smul_eq_mul]
        omega
    simpa [Ty.size, size] using this
  | bytes content =>
    rw [shape] at shaped
    obtain ⟨base, len, rfl, size⟩ := shaped
    exact size

/-! ## Memory -/

/-- The live objects with their sizes, and the bytes of all objects. -/
structure Mem where
  size : Obj → Option Nat
  byte : Obj → Nat → MByte

namespace Mem

/-- The `count` bytes from `p` on lie in a live object. -/
def Valid (m : Mem) (p : Ptr) (count : Nat) : Prop :=
  ∃ size ∈ m.size p.obj, 0 ≤ p.off ∧ p.off + count ≤ size

instance (m : Mem) (p : Ptr) (count : Nat) : Decidable (m.Valid p count) :=
  match h : m.size p.obj with
  | none => .isFalse (by rintro ⟨_, live, -⟩; simp [h] at live)
  | some size =>
    if bounds : 0 ≤ p.off ∧ p.off + count ≤ size then .isTrue ⟨size, h, bounds⟩
    else .isFalse (by rintro ⟨_, live, inside⟩; simp [h] at live; subst live; exact bounds inside)

/-- The bytes `off, …, off + count - 1` of an object. -/
def bytesAt (m : Mem) (obj : Obj) (off count : Nat) : List MByte :=
  (List.range count).map fun i => m.byte obj (off + i)

def read (m : Mem) (p : Ptr) (count : Nat) : Option (List MByte) :=
  if m.Valid p count then some (m.bytesAt p.obj p.off.toNat count) else none

/-- Overwrite a row of bytes of an object. -/
def overwrite (m : Mem) (obj : Obj) (off : Nat) (content : List MByte) : Mem :=
  { m with
    byte := fun o i =>
      if o = obj ∧ off ≤ i then (content[i - off]?).getD (m.byte o i) else m.byte o i }

def write (m : Mem) (p : Ptr) (content : List MByte) : Option Mem :=
  if m.Valid p content.length then some (m.overwrite p.obj p.off.toNat content) else none

/-- The row of bytes `[off, off + count)` of `obj` does not meet the row
`[off', off' + count')` of `obj'`. -/
def Apart (obj : Obj) (off count : Nat) (obj' : Obj) (off' count' : Nat) : Prop :=
  obj ≠ obj' ∨ off + count ≤ off' ∨ off' + count' ≤ off

variable {m : Mem} {obj obj' : Obj} {off off' count : Nat} {content : List MByte}

@[simp] theorem overwrite_size : (m.overwrite obj off content).size = m.size := rfl

theorem overwrite_apart (apart : Apart obj' off' count obj off content.length) :
    (m.overwrite obj off content).bytesAt obj' off' count = m.bytesAt obj' off' count := by
  refine List.map_congr_left fun i member => ?_
  have lt := List.mem_range.mp member
  simp only [overwrite]
  split
  · next inside =>
      have outside : content.length ≤ off' + i - off := by
        rcases apart with differ | before | after
        · exact absurd inside.1 differ
        · omega
        · omega
      rw [List.getElem?_eq_none_iff.mpr outside]
      rfl
  · rfl

theorem overwrite_same :
    (m.overwrite obj off content).bytesAt obj off content.length = content := by
  apply List.ext_getElem
  · simp [bytesAt]
  · intro i h₁ h₂
    simp [bytesAt, overwrite, List.getElem?_eq_getElem h₂]

theorem read_eq_some {p : Ptr} :
    m.read p count = some content ↔
      m.Valid p count ∧ content = m.bytesAt p.obj p.off.toNat count := by
  unfold read
  split <;> simp [*, eq_comm]

theorem write_eq_some {p : Ptr} {m' : Mem} :
    m.write p content = some m' ↔
      m.Valid p content.length ∧ m' = m.overwrite p.obj p.off.toNat content := by
  unfold write
  split <;> simp [*, eq_comm]

/-- The size of the object of an `alloc`. -/
def allocSize (F : FunctionData) (inst : Inst) : Option Nat :=
  match F.insts inst with
  | some ⟨.pointer base, .alloc⟩ => some base.size
  | _ => none

/-- The objects of a new activation: live, and with undefined bytes. -/
def enter (m : Mem) (F : FunctionData) (func : Function) (frame : Nat) : Mem where
  size
    | .stack fr f inst => if fr = frame ∧ f = func then allocSize F inst
        else m.size (.stack fr f inst)
    | .global inst => m.size (.global inst)
  byte
    | .stack fr f inst => if fr = frame ∧ f = func then fun _ => .undef
        else m.byte (.stack fr f inst)
    | .global inst => m.byte (.global inst)

/-- The objects of an activation are gone. -/
def release (m : Mem) (func : Function) (frame : Nat) : Mem :=
  { m with
    size
      | .stack fr f inst => if fr = frame ∧ f = func then none else m.size (.stack fr f inst)
      | .global inst => m.size (.global inst) }

end Mem

end AnonCompiler.Ir
