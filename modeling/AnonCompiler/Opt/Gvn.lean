import AnonCompiler.Opt.DomTree
import AnonCompiler.Opt.Effects

/-!
# Global value numbering

`opt/passes/gvn.rs`.  The pass walks down the dominator tree and visits the
parameters and instructions of every block.  A value that has an earlier leader,
in a block above or in the same block, is replaced by it wherever it is used.
Three tables hold the leaders: one for pure values, by value number; one for
loads, by the address; one for calls of removable functions, by value number.

A leader for a load counts as long as the store counter has not moved; writers and
loop headers move it when the walk visits them.  A leader for a call is dropped
when the walk visits a writer that may write what the callee reads.

The walk is a sequence of turns (`turn`).  `none` is a panic of the source, or a
value whose operands are nested deeper than the fuel.  Beside the state of the
source a `Trace` is kept, which the pass never reads.
-/

set_option autoImplicit false

namespace AnonCompiler.Opt.Gvn

open Ir DomTree

/-! ## Value numbers -/

abbrev ValueNumber := Nat

inductive ValueKey where
  | integer (ty : Ty) (value : BitVec 32)
  | float (ty : Ty) (bits : BitVec 32)
  | binary (operandTy resultTy : Ty) (op : BinaryOp) (lhs rhs : ValueNumber)
  | cast (srcTy resultTy : Ty) (src : ValueNumber)
  | select (resultTy : Ty) (cond ifTrue ifFalse : ValueNumber)
  | getElemPtr (baseTy resultTy : Ty) (base : ValueNumber) (offsets : List ValueNumber)
  | call (callee : Function) (resultTy : Ty) (args : List ValueNumber)
  | identity (ty : Ty) (value : Inst)
deriving DecidableEq, Repr

structure NumberedValue where
  number : ValueNumber
  eliminable : Bool
deriving DecidableEq, Repr

structure ValueNumbering where
  next : Nat
  byInst : Inst → Option NumberedValue
  byKey : List (ValueKey × ValueNumber)

def isCommutativeFor (op : BinaryOp) (operandTy : Ty) : Bool :=
  match op with
  | .notEq | .eq | .min | .max => true
  | .add | .mul | .and | .or | .xor => operandTy = .int32
  | _ => false

def swapCompareArgs : BinaryOp → Option BinaryOp
  | .notEq => some .notEq
  | .eq => some .eq
  | .gt => some .lt
  | .lt => some .gt
  | .ge => some .le
  | .le => some .ge
  | _ => none

/-- The key of a binary operation, the operand with the smaller number on the left
where the operation can be turned. -/
def binaryKey (operandTy resultTy : Ty) (op : BinaryOp) (lhs rhs : ValueNumber) : ValueKey :=
  if rhs < lhs then
    if isCommutativeFor op operandTy then .binary operandTy resultTy op rhs lhs
    else
      match swapCompareArgs op with
      | some swapped => .binary operandTy resultTy swapped rhs lhs
      | none => .binary operandTy resultTy op lhs rhs
  else .binary operandTy resultTy op lhs rhs

namespace ValueNumbering

def init : ValueNumbering := ⟨0, fun _ => none, []⟩

/-- The number of a key, a new one for a new key, recorded for the value. -/
def intern (N : ValueNumbering) (value : Inst) (key : ValueKey) (eliminable : Bool) :
    NumberedValue × ValueNumbering :=
  match N.byKey.lookup key with
  | some number =>
    (⟨number, eliminable⟩,
      { N with byInst := Function.update N.byInst value (some ⟨number, eliminable⟩) })
  | none =>
    (⟨N.next, eliminable⟩,
      { next := N.next + 1
        byInst := Function.update N.byInst value (some ⟨N.next, eliminable⟩)
        byKey := (key, N.next) :: N.byKey })

variable (P : Program) (A : EffectAnalysis) (F : FunctionData)

mutual

def number : Nat → ValueNumbering → Inst → Option (NumberedValue × ValueNumbering)
  | 0, _, _ => none
  | fuel + 1, N, value =>
    match N.byInst value with
    | some numbered => some (numbered, N)
    | none =>
      match P.instData F value with
      | none => none
      | some ⟨ty, kind⟩ =>
        match kind with
        | .integer v => some (N.intern value (.integer ty v) true)
        | .float bits => some (N.intern value (.float ty bits) true)
        | .binary op lhs rhs => do
            let operandTy ← P.typeOf F lhs
            let (lhs, N) ← number fuel N lhs
            let (rhs, N) ← number fuel N rhs
            some (N.intern value (binaryKey operandTy ty op lhs.number rhs.number) true)
        | .cast src => do
            let srcTy ← P.typeOf F src
            let (src, N) ← number fuel N src
            some (N.intern value (.cast srcTy ty src.number) true)
        | .select cond ifTrue ifFalse => do
            let (cond, N) ← number fuel N cond
            let (ifTrue, N) ← number fuel N ifTrue
            let (ifFalse, N) ← number fuel N ifFalse
            some (N.intern value (.select ty cond.number ifTrue.number ifFalse.number) true)
        | .getElemPtr base offsets => do
            let baseTy ← P.typeOf F base
            let (base, N) ← number fuel N base
            let (offsets, N) ← numberAll fuel N offsets
            some (N.intern value (.getElemPtr baseTy ty base.number offsets) true)
        | .call callee args =>
          if (A.effects callee).isRemovable then do
            let (args, N) ← numberAll fuel N args
            some (N.intern value (.call callee ty args) true)
          else some (N.intern value (.identity ty value) false)
        | _ => some (N.intern value (.identity ty value) false)

def numberAll : Nat → ValueNumbering → List Inst → Option (List ValueNumber × ValueNumbering)
  | 0, _, _ => none
  | _ + 1, N, [] => some ([], N)
  | fuel + 1, N, value :: values => do
      let (first, N) ← number fuel N value
      let (rest, N) ← numberAll fuel N values
      some (first.number :: rest, N)

end

end ValueNumbering

/-! ## Replacing a value -/

/-- The user of a value after the replacement, as `visit_and_replace_single` builds
it: a branch on a constant becomes a jump. -/
def replaceKind (P : Program) (F : FunctionData) (rep repWith : Inst)
    (kind : InstKind) : InstKind :=
  let sub := fun x => if x = rep then repWith else x
  match kind with
  | .binary op lhs rhs => .binary op (sub lhs) (sub rhs)
  | .select cond ifTrue ifFalse => .select (sub cond) (sub ifTrue) (sub ifFalse)
  | .jump target args => .jump target (args.map sub)
  | .branch cond tTarget tArgs fTarget fArgs =>
    match kindIn P F (sub cond) with
    | some (.integer value) => if value = 0 then .jump fTarget fArgs else .jump tTarget tArgs
    | _ => .branch (sub cond) tTarget (tArgs.map sub) fTarget (fArgs.map sub)
  | .cast _ => .cast repWith
  | .ret (some value) => .ret (some (sub value))
  | .getElemPtr base offsets => .getElemPtr (sub base) (offsets.map sub)
  | .store src dest => .store (sub src) (sub dest)
  | .memZero dest (.const bytes) => .memZero (sub dest) (.const bytes)
  | .memZero dest (.value len) => .memZero (sub dest) (.value (sub len))
  | .load _ => .load repWith
  | .call callee args => .call callee (args.map sub)
  | .tailCall callee args => .tailCall callee (args.map sub)
  | .aggregate value => .aggregate (value.map sub)
  | .fma acc lhs rhs => .fma (sub acc) (sub lhs) (sub rhs)
  | .vectorSplat src => .vectorSplat (sub src)
  | .vectorExtractElement src index => .vectorExtractElement (sub src) (sub index)
  | .vectorInsertElement vector element index =>
    .vectorInsertElement (sub vector) (sub element) (sub index)
  | .vectorReduce src => .vectorReduce (sub src)
  | kind => kind

/-- All users of a value use the other one.  Both have the same type, so the types
of the users stay. -/
def visitAndReplace (P : Program) (F : FunctionData) (rep repWith : Inst) : FunctionData :=
  { F with
    insts := fun inst => (F.insts inst).map fun data =>
      if rep ∈ data.kind.instUsage then { data with kind := replaceKind P F rep repWith data.kind }
      else data }

/-! ## Leaders in scopes -/

/-- A table whose entries are removed when the scope they were made in ends. -/
structure Scoped (κ β : Type) where
  leaders : κ → Option β
  scopes : List (List κ)

namespace Scoped

variable {κ β : Type} [DecidableEq κ]

def init : Scoped κ β := ⟨fun _ => none, []⟩

def enterScope (L : Scoped κ β) : Scoped κ β := { L with scopes := [] :: L.scopes }

def insert (L : Scoped κ β) (key : κ) (leader : β) : Option (Scoped κ β) :=
  match L.scopes with
  | [] => none
  | scope :: scopes =>
    some ⟨Function.update L.leaders key (some leader), (key :: scope) :: scopes⟩

def exitScope (L : Scoped κ β) : Option (Scoped κ β) :=
  match L.scopes with
  | [] => none
  | scope :: scopes => some ⟨fun key => if key ∈ scope then none else L.leaders key, scopes⟩

/-- Drop the entries that match. -/
def invalidateMatching (L : Scoped κ β) (matching : β → Bool) : Scoped κ β :=
  { L with leaders := fun key => (L.leaders key).filter (!matching ·) }

end Scoped

/-! ## The walk -/

inductive Visit where
  | enter (id : Nat)
  | exit
deriving DecidableEq, Repr

/-- A value that has been replaced, its leader, and the values visited before it with
what they were then. -/
structure Replacement where
  value : Inst
  leader : Inst
  seen : List (Inst × InstKind)
deriving Repr

/-- What has happened so far; the latest comes first. -/
structure Trace where
  /-- The blocks whose scopes are open. -/
  path : List Nat
  entered : List Nat
  /-- The values visited, with what they were when the walk came to them. -/
  seen : List (Inst × InstKind)
  loads : List Replacement
  calls : List Replacement

structure Walk where
  data : FunctionData
  numbers : ValueNumbering
  leaders : Scoped ValueNumber Inst
  loadLeaders : Scoped Inst (Inst × Nat)
  storeCounter : Nat
  callLeaders : Scoped ValueNumber (Inst × Function)
  visits : List Visit
  trace : Trace

namespace Walk

def init (F : FunctionData) : Walk where
  data := F
  numbers := .init
  leaders := .init
  loadLeaders := .init
  storeCounter := 0
  callLeaders := .init
  visits := [.enter 0]
  trace := ⟨[], [], [], [], []⟩

def recordStore (w : Walk) : Walk := { w with storeCounter := w.storeCounter + 1 }

/-- The leader for an address, if the counter has not moved since. -/
def loadLeader (w : Walk) (addr : Inst) : Option Inst :=
  ((w.loadLeaders.leaders addr).filter (·.2 = w.storeCounter)).map Prod.fst

def replaces (w : Walk) (value leader : Inst) : Bool :=
  value ≠ leader && !(w.data.usedBy value).isEmpty

end Walk

section Visits

variable (P : Program) (A : EffectAnalysis) (func : Function)

/-- A call of the function may read what is at the address. -/
def mayRead (F : FunctionData) (addr : Inst) (callee : Function) : Bool :=
  A.callMayRead callee (A.targetsOf P F func addr)

/-- The sibling may write what the callee reads. -/
def conflicts (sibling callee : Function) : Bool :=
  match A.callReadRoots callee func with
  | some reads => A.callMayWrite sibling (some (reads.map WriteRoot.object))
  | none => (A.effects sibling).mayWriteMemory

/-- Whether the sibling drops any leaders: it is asked whether it may write what it
reads itself. -/
def hasConflict (sibling : Function) : Bool := conflicts A func sibling sibling

/-- A load: replaced by the leader of its address, or the new leader. -/
def visitLoad (w : Walk) (value addr : Inst) : Option Walk :=
  match w.loadLeader addr with
  | some leader =>
    if w.replaces value leader then
      some { w with
        data := visitAndReplace P w.data value leader
        trace := { w.trace with loads := ⟨value, leader, w.trace.seen⟩ :: w.trace.loads } }
    else some w
  | none =>
    (w.loadLeaders.insert addr (value, w.storeCounter)).map fun leaders =>
      { w with loadLeaders := leaders }

/-- What a value does to the leaders of loads and calls. -/
def invalidate (w : Walk) (kind : InstKind) : Walk :=
  match kind with
  | .store _ dest | .memZero dest _ =>
    { w.recordStore with
      callLeaders := w.callLeaders.invalidateMatching fun entry =>
        mayRead P A func w.data dest entry.2 }
  | .call sibling _ =>
    let w := if (A.effects sibling).mayWriteMemory then w.recordStore else w
    if hasConflict A func sibling then
      { w with
        callLeaders := w.callLeaders.invalidateMatching fun entry =>
          conflicts A func sibling entry.2 }
    else w
  | _ => w

/-- A pure value or a call of a removable function. -/
def visitNumbered (w : Walk) (value : Inst) (kind : InstKind) (number : ValueNumber) :
    Option Walk :=
  match kind with
  | .call callee _ =>
    match w.callLeaders.leaders number with
    | some (leader, _) =>
      if P.typeOf w.data value = P.typeOf w.data leader then
        if w.replaces value leader then
          some { w with
            data := visitAndReplace P w.data value leader
            trace := { w.trace with calls := ⟨value, leader, w.trace.seen⟩ :: w.trace.calls } }
        else some w
      else none
    | none =>
      (w.callLeaders.insert number (value, callee)).map fun leaders =>
        { w with callLeaders := leaders }
  | _ =>
    match w.leaders.leaders number with
    | some leader =>
      if P.typeOf w.data value = P.typeOf w.data leader then
        if w.replaces value leader then
          some { w with data := visitAndReplace P w.data value leader }
        else some w
      else none
    | none => (w.leaders.insert number value).map fun leaders => { w with leaders }

/-- Number a value, for itself and as an operand of others. -/
def numberValue (fuel : Nat) (w : Walk) (value : Inst) : Option (NumberedValue × Walk) :=
  (ValueNumbering.number P A w.data fuel w.numbers value).map fun result =>
    (result.1, { w with numbers := result.2 })

def visitKind (fuel : Nat) (w : Walk) (value : Inst) : InstKind → Option Walk
  | .load addr =>
    (visitLoad P w value addr).bind fun w => (numberValue P A fuel w value).map Prod.snd
  | kind =>
    (numberValue P A fuel (invalidate P A func w kind) value).bind fun result =>
      if result.1.eliminable then visitNumbered P result.2 value kind result.1.number
      else some result.2

/-- Visit one parameter or instruction. -/
def visitValue (fuel : Nat) (w : Walk) (value : Inst) : Option Walk :=
  (w.data.kind value).bind fun kind =>
    (visitKind P A func fuel w value kind).map fun w =>
      { w with trace := { w.trace with seen := (value, kind) :: w.trace.seen } }

/-- Enter a block: a scope in each table, and a moved counter at a loop header. -/
def enterBlock (cfg : Cfg) (w : Walk) (id : Nat) : Walk :=
  { w with
    leaders := w.leaders.enterScope
    loadLeaders := w.loadLeaders.enterScope
    callLeaders := w.callLeaders.enterScope
    storeCounter := if cfg.isLoopHeader id then w.storeCounter + 1 else w.storeCounter
    visits := (cfg.children id).map .enter ++ .exit :: w.visits
    trace := { w.trace with path := id :: w.trace.path, entered := id :: w.trace.entered } }

def exitBlock (w : Walk) : Option Walk := do
  let loadLeaders ← w.loadLeaders.exitScope
  let callLeaders ← w.callLeaders.exitScope
  let leaders ← w.leaders.exitScope
  some { w with
    leaders, loadLeaders, callLeaders
    trace := { w.trace with path := w.trace.path.tail } }

/-- One turn of the walk. -/
def turn (cfg : Cfg) (fuel : Nat) (w : Walk) : Option Walk :=
  match w.visits with
  | [] => some w
  | .exit :: rest => exitBlock { w with visits := rest }
  | .enter id :: rest =>
    (cfg.alloc[id]?).bind fun bb =>
      (w.data.blockInsts bb).bind fun insts =>
        (w.data.blockParams bb ++ insts).foldlM (visitValue P A func fuel)
          (enterBlock cfg { w with visits := rest } id)

/-- The state after a number of turns. -/
def walk (cfg : Cfg) (fuel : Nat) (F : FunctionData) : Nat → Option Walk
  | 0 => some (.init F)
  | turns + 1 => (walk cfg fuel F turns).bind (turn P A func cfg fuel)

end Visits

end AnonCompiler.Opt.Gvn
