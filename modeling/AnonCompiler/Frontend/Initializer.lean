import AnonCompiler.Ir.Exec
import AnonCompiler.Lib.RowMajor

/-!
# Array initializers

The two enumerations of an initializer in `frontend/items.rs`, the conversion of local and
global array definitions in `frontend/ast.rs`, and the emission of global data in
`taki_mir/src/lib.rs`.  `InitVal` and `ConstInitVal` share their text but for the type of
the expressions, which is a parameter here.

`none` is a panic.  Overflows of `usize` and of sums of `u32` panic, as they do with
overflow checks; `as u32` truncates.
-/

set_option autoImplicit false

namespace AnonCompiler.Frontend

open AnonCompiler.Ir AnonCompiler.Lib

/-! ## Machine integers -/

/-- A result of `usize` arithmetic. -/
def usize (n : Nat) : Option Nat := if n < 2 ^ 64 then some n else none

def u32 (n : Nat) : Option Nat := if n < 2 ^ 32 then some n else none

/-- `dims.iter().map(|&dim| dim as usize).product()` -/
def product (dims : List Nat) : Option Nat := dims.foldlM (fun acc dim => usize (acc * dim)) 1

/-- `Type::size` -/
def usizeSize : Ty → Option Nat
  | .array base len => (usizeSize base).bind fun size => usize (size * len)
  | .vector elem lanes => (usizeSize elem).bind fun size => usize (size * lanes)
  | ty => some ty.size

/-- `Vec::with_capacity` for pointers: no allocation is larger than `isize::MAX` bytes. -/
def withCapacity (capacity : Nat) : Option Unit :=
  if pointerSize * capacity < 2 ^ 63 then some () else none

/-! ## The two enumerations -/

inductive InitVal (Exp : Type) where
  | normal (exp : Exp)
  | array (initVals : List (InitVal Exp))

/-- The dimensions of an array, each a positive `i32`. -/
structure ArrayShape where
  dims : List Nat
  nonempty : dims ≠ []
  positive : ∀ dim ∈ dims, 0 < dim
  isI32 : ∀ dim ∈ dims, dim < 2 ^ 31

/-- The loop over the dimensions, innermost first, that looks for the sub-arrays which
start at the cursor. -/
def alignedFrom (cursor : Nat) : List (Nat × Nat) → Nat → Nat → Option Nat
  | [], _, subShapeIdx => some subShapeIdx
  | (dim, index) :: outer, stride, subShapeIdx => do
      let stride ← usize (stride * dim)
      if cursor % stride = 0 then alignedFrom cursor outer stride index else some subShapeIdx

/-- Where the shape of a nested brace starts; a nested brace descends by a level at least. -/
def subShapeIdx (arrayShape : List Nat) (cursor : Nat) : Option Nat := do
  let index ← alignedFrom cursor arrayShape.zipIdx.reverse 1 arrayShape.length
  some (if index = 0 ∧ arrayShape ≠ [] then 1 else index)

namespace InitVal

variable {Exp : Type}

mutual
def isEmptyInit : InitVal Exp → Bool
  | .normal _ => false
  | .array initVals => allEmptyInit initVals

def allEmptyInit : List (InitVal Exp) → Bool
  | [] => true
  | initVal :: rest => isEmptyInit initVal && allEmptyInit rest
end

mutual
def collectExplicitInitVals : InitVal Exp → List Nat → Nat → Option (List (Nat × Exp))
  | .normal _, _, _ => none
  | .array initVals, arrayShape, base => do
      let capacity ← product arrayShape
      collectItems initVals arrayShape base capacity 0
termination_by structural initVal => initVal

def collectItems : List (InitVal Exp) → List Nat → Nat → Nat → Nat → Option (List (Nat × Exp))
  | [], _, _, _, _ => some []
  | initVal :: rest, arrayShape, base, capacity, cursor =>
    if capacity ≤ cursor then some []
    else
      match initVal with
      | .normal exp => do
          let position ← usize (base + cursor)
          let next ← usize (cursor + 1)
          let entries ← collectItems rest arrayShape base capacity next
          some ((position, exp) :: entries)
      | .array _ => do
          let index ← subShapeIdx arrayShape cursor
          let subBase ← usize (base + cursor)
          let inner ← collectExplicitInitVals initVal (arrayShape.drop index) subBase
          let size ← product (arrayShape.drop index)
          let next ← usize (cursor + size)
          let entries ← collectItems rest arrayShape base capacity next
          some (inner ++ entries)
termination_by structural initVals => initVals
end

def explicitInitVals (initVal : InitVal Exp) (arrayShape : List Nat) : Option (List (Nat × Exp)) :=
  collectExplicitInitVals initVal arrayShape 0

/-- `v.resize(capacity, None)` -/
def resize (capacity : Nat) (v : List (Option Exp)) : List (Option Exp) :=
  v.take capacity ++ List.replicate (capacity - v.length) none

mutual
def initValShape : InitVal Exp → List Nat → Option (List (Option Exp))
  | .normal _, _ => none
  | .array initVals, arrayShape => do
      let capacity ← product arrayShape
      withCapacity capacity
      let v ← shapeItems initVals arrayShape capacity []
      some (resize capacity v)
termination_by structural initVal => initVal

def shapeItems : List (InitVal Exp) → List Nat → Nat → List (Option Exp) →
    Option (List (Option Exp))
  | [], _, _, v => some v
  | initVal :: rest, arrayShape, capacity, v =>
    if capacity ≤ v.length then some v
    else
      match initVal with
      | .normal exp => shapeItems rest arrayShape capacity (v ++ [some exp])
      | .array _ => do
          let index ← subShapeIdx arrayShape v.length
          let subVals ← initValShape initVal (arrayShape.drop index)
          shapeItems rest arrayShape capacity (v ++ subVals)
termination_by structural initVals => initVals
end

end InitVal

/-! ## Array definitions -/

/-- The type of a declaration; it is asserted to be a scalar. -/
inductive BType where
  | int
  | float
deriving DecidableEq, Repr

def BType.ty : BType → Ty
  | .int => .int32
  | .float => .float32

def arrayTy (bType : BType) (arrayShape : List Nat) : Ty :=
  arrayShape.foldr (fun len base => .array base len) bType.ty

/-- The indices, the first of them into the pointer itself, each cast by `as i32`. -/
def localArrayElementPtr (arrayShape : List Nat) (flatIndex : Nat) : List (BitVec 32) :=
  0 :: (digits arrayShape.reverse flatIndex).reverse.map (BitVec.ofNat 32)

/-- What the conversion of a local definition appends to the block: the clearing of the
array, and for every explicit element the code of its expression, coerced to the type of
the element, the `getElemPtr` with the given offsets and the store. -/
inductive LocalInit (Exp : Type) where
  | memZero (byteLen : Nat)
  | store (exp : Exp) (offsets : List (BitVec 32))

section VarDef

variable {Exp : Type} (bType : BType) (arrayShape : List Nat) (initVal : InitVal Exp)

/-- The part of the code for one entry of the enumeration. -/
def storeEntry (entry : Nat × Exp) : LocalInit Exp :=
  .store entry.2 (localArrayElementPtr arrayShape entry.1)

/-- `VarDef::convert` for an array with an initializer. -/
def convert : Option (List (LocalInit Exp)) :=
  match initVal with
  | .normal _ => none
  | .array _ => do
      let byteLen ← usizeSize (arrayTy bType arrayShape)
      let entries ← initVal.explicitInitVals arrayShape
      some (.memZero byteLen :: entries.map (storeEntry arrayShape))

/-- A constant of the global arena. -/
inductive GlobalInst where
  | integer (value : BitVec 32)
  | float (bits : BitVec 32)
  | zeroInit (ty : Ty)
  | aggregate (ty : Ty) (value : List GlobalInst)

def GlobalInst.ty : GlobalInst → Ty
  | .integer _ => .int32
  | .float _ => .float32
  | .zeroInit ty => ty
  | .aggregate ty _ => ty

/-- The constant of the declared type with the given word, also `zero_global` of that type
for the word zero. -/
def BType.const : BType → BitVec 32 → GlobalInst
  | .int, word => .integer word
  | .float, word => .float word

/-- `new_global_value().aggregate` -/
def aggregate : List GlobalInst → Option GlobalInst
  | [] => none
  | first :: rest =>
    if ∀ elem ∈ rest, elem.ty = first.ty then
      some (.aggregate (.array first.ty (rest.length + 1)) (first :: rest))
    else none

/-- `VarDef::global_convert` for an array with an initializer.  `value` gives the constants
that the expressions evaluate to, coerced to the declared type. -/
def globalConvert (value : Exp → BitVec 32) : Option GlobalInst :=
  match initVal with
  | .normal _ => none
  | .array _ =>
    if initVal.isEmptyInit then some (.zeroInit (arrayTy bType arrayShape))
    else do
      let exps ← initVal.initValShape arrayShape
      let agg ← arrayShape.reverse.foldlM (fun elems dim => (chunks dim elems).mapM aggregate)
        (exps.map fun exp => bType.const (exp.elim 0 value))
      agg.head?

end VarDef

/-! ## Global data -/

inductive GlobalData where
  | i32 (value : BitVec 32)
  | f32 (bits : BitVec 32)
  | zeroInit (size : Nat)

namespace GlobalData

def isZero : GlobalData → Bool
  | .i32 value => value == 0
  | .f32 bits => bits == 0
  | .zeroInit _ => true

def size : GlobalData → Nat
  | .i32 _ | .f32 _ => 4
  | .zeroInit size => size

end GlobalData

mutual
def lowerGlobalInit : GlobalInst → Option (List GlobalData)
  | .integer value => some [.i32 value]
  | .float bits => some [.f32 bits]
  | .zeroInit ty => (usizeSize ty).map fun size => [.zeroInit (size % 2 ^ 32)]
  | .aggregate _ value => lowerElems value
termination_by structural init => init

def lowerElems : List GlobalInst → Option (List GlobalData)
  | [] => some []
  | elem :: rest => do
      let data ← lowerGlobalInit elem
      let later ← lowerElems rest
      some (data ++ later)
termination_by structural value => value
end

/-- A line of the data sections. -/
inductive Directive where
  | word (value : BitVec 32)
  | zero (size : Nat)

def GlobalData.directive : GlobalData → Directive
  | .i32 value => .word value
  | .f32 bits => .word bits
  | .zeroInit size => .zero size

/-- The lines below the label of a global: in the data section those of its entries, in the
section of the zero-initialized globals one for all. -/
def emitGlobal (data : List GlobalData) : Option (List Directive) :=
  if data.all GlobalData.isZero then
    (data.foldlM (fun sum entry => u32 (sum + entry.size)) 0).map fun size => [.zero size]
  else some (data.map GlobalData.directive)

/-- What the assembler puts into memory for a line. -/
def Directive.bytes : Directive → List MByte
  | .word value => wordBytes value
  | .zero size => zeroBytes size

/-- The memory of a global array. -/
def globalBytes {Exp : Type} (bType : BType) (arrayShape : List Nat) (initVal : InitVal Exp)
    (value : Exp → BitVec 32) : Option (List MByte) := do
  let init ← globalConvert bType arrayShape initVal value
  let data ← lowerGlobalInit init
  let lines ← emitGlobal data
  some (lines.flatMap Directive.bytes)

/-! ## Running the code of a local definition -/

def BType.val : BType → BitVec 32 → Val
  | .int, word => .int word
  | .float, word => .float word

section Run

variable {Exp σ : Type} (bType : BType) (arrayShape : List Nat) (obj : Obj)
  (eval : Exp → σ → BitVec 32 × σ)

/-- A step of the code, with the array in the object `obj`.  An expression yields a word of
the declared type and changes the state of the program, which the memory of the array, not
in scope yet, is no part of. -/
def LocalInit.run (state : σ × Mem) : LocalInit Exp → Option (σ × Mem)
  | .memZero byteLen => (state.2.write ⟨obj, 0⟩ (zeroBytes byteLen)).map fun m => (state.1, m)
  | .store exp offsets => do
      let off ← gepOffset (.pointer (arrayTy bType arrayShape)) (offsets.map BitVec.toInt)
      let m ← state.2.write ⟨obj, off⟩ (encode bType.ty (bType.val (eval exp state.1).1))
      some ((eval exp state.1).2, m)

def runLocal (code : List (LocalInit Exp)) (state : σ × Mem) : Option (σ × Mem) :=
  code.foldlM (LocalInit.run bType arrayShape obj eval) state

end Run

end AnonCompiler.Frontend
