import AnonCompiler.Ir.WellFormed

/-!
# Effect summaries

The data and the queries of `opt/analysis_passes/effects.rs`: which objects a
function may read or write, and what a pointer parameter may point to.  An
`EffectAnalysis` is what the fixed points of the source leave behind; the passes
that use it only ask the queries below, and what is proved of them holds whatever
the analysis says.

Sets of the source are lists.
-/

set_option autoImplicit false

namespace AnonCompiler.Opt

open Ir

/-- The base object a pointer derives from. -/
inductive MemObject where
  | alloc (inst : Inst)
  | global (inst : Inst)
  | param (index : Nat)
  | unknown
deriving DecidableEq, Repr

/-- An object of the whole program, or anything. -/
inductive AbstractObject where
  | global (inst : Inst)
  | alloc (func : Function) (inst : Inst)
  | unknown
deriving DecidableEq, Repr

/-- An object as a function sees it. -/
inductive EffectObject where
  | global (inst : Inst)
  | alloc (func : Function) (inst : Inst)
  | param (index : Nat)
deriving DecidableEq, Repr

/-- An object a callee may touch, as the caller sees it. -/
inductive WriteRoot where
  | global (inst : Inst)
  | locals (func : Function) (inst : Inst)
deriving DecidableEq, Repr

def WriteRoot.object : WriteRoot → AbstractObject
  | .global inst => .global inst
  | .locals func inst => .alloc func inst

structure FunctionEffects where
  reads : List EffectObject
  writes : List EffectObject
  readsUnknown : Bool
  writesUnknown : Bool
  readsIo : Bool
  writesIo : Bool
deriving Repr

namespace FunctionEffects

def isPure (fx : FunctionEffects) : Bool := fx.writes.isEmpty && !fx.writesUnknown && !fx.writesIo

def isRemovable (fx : FunctionEffects) : Bool := fx.isPure && !fx.readsIo

def mayWriteMemory (fx : FunctionEffects) : Bool := !fx.writes.isEmpty || fx.writesUnknown

def mayReadMemory (fx : FunctionEffects) : Bool := !fx.reads.isEmpty || fx.readsUnknown

end FunctionEffects

structure EffectAnalysis where
  /-- `base_table` of the environment of each function. -/
  baseTable : Function → Inst → Option MemObject
  effects : Function → FunctionEffects
  pointsTo : Function → Nat → Option (List AbstractObject)

namespace EffectAnalysis

variable (A : EffectAnalysis)

def baseOf (P : Program) (F : FunctionData) (func : Function) (ptr : Inst) : MemObject :=
  match kindIn P F ptr with
  | some (.globalAlloc _) => .global ptr
  | _ => (A.baseTable func ptr).getD .unknown

/-- The objects an address may point to; `none` is any object. -/
def targetsOf (P : Program) (F : FunctionData) (func : Function) (addr : Inst) :
    Option (List AbstractObject) :=
  match A.baseOf P F func addr with
  | .alloc inst => some [.alloc func inst]
  | .global inst => some [.global inst]
  | .param index =>
    match A.pointsTo func index with
    | some set => if .unknown ∈ set then none else some set
    | none => none
  | .unknown => none

/-- Some of the objects, in the terms of the callee, lies in the targets. -/
def touches (callee : Function) (objects : List EffectObject)
    (targets : List AbstractObject) : Bool :=
  objects.any fun object =>
    match object with
    | .global inst => .global inst ∈ targets
    | .alloc func inst => .alloc func inst ∈ targets
    | .param index => ((A.pointsTo callee index).getD []).any fun pointee =>
      pointee = .unknown || pointee ∈ targets

def callMayWrite (callee : Function) (targets : Option (List AbstractObject)) : Bool :=
  let fx := A.effects callee
  fx.writesUnknown ||
    match targets with
    | none => fx.mayWriteMemory
    | some targets => A.touches callee fx.writes targets

def callMayRead (callee : Function) (targets : Option (List AbstractObject)) : Bool :=
  let fx := A.effects callee
  fx.readsUnknown ||
    match targets with
    | none => fx.mayReadMemory
    | some targets => A.touches callee fx.reads targets

/-- The roots of one object, in the terms of `func`; objects of other frames are
left out. -/
def rootsOf (callee func : Function) : EffectObject → Option (List WriteRoot)
  | .global inst => some [.global inst]
  | .alloc owner inst => some (if owner = func then [.locals func inst] else [])
  | .param index =>
    ((A.pointsTo callee index).getD []).foldlM (fun roots pointee =>
      match pointee with
      | .global inst => some (roots ++ [.global inst])
      | .alloc owner inst => some (if owner = func then roots ++ [.locals func inst] else roots)
      | .unknown => none) []

/-- The roots a call may read; `none` is anything. -/
def callReadRoots (callee func : Function) : Option (List WriteRoot) :=
  let fx := A.effects callee
  if fx.readsUnknown then none
  else (fx.reads.mapM (A.rootsOf callee func)).map List.flatten

/-! ## What the summaries say of an object -/

/-- The object is one of those a summary of the callee names. -/
def Names (callee : Function) (object : EffectObject) (target : AbstractObject) : Prop :=
  match object with
  | .global inst => target = .global inst
  | .alloc func inst => target = .alloc func inst
  | .param index => ∃ set, A.pointsTo callee index = some set ∧ (.unknown ∈ set ∨ target ∈ set)

/-- A call of the function may read the object. -/
def MayReadObject (callee : Function) (target : AbstractObject) : Prop :=
  (A.effects callee).readsUnknown = true ∨
    ∃ object ∈ (A.effects callee).reads, A.Names callee object target

/-- A call of the function may write the object. -/
def MayWriteObject (callee : Function) (target : AbstractObject) : Prop :=
  (A.effects callee).writesUnknown = true ∨
    ∃ object ∈ (A.effects callee).writes, A.Names callee object target

/-- The address may point to the object. -/
def PointsTo (P : Program) (F : FunctionData) (func : Function) (addr : Inst)
    (target : AbstractObject) : Prop :=
  ∀ targets, A.targetsOf P F func addr = some targets → target ∈ targets

variable {A} {callee func : Function} {target : AbstractObject}

theorem touches_of_names {objects : List EffectObject} {targets : List AbstractObject}
    {object : EffectObject} (member : object ∈ objects) (names : A.Names callee object target)
    (isTarget : target ∈ targets) : A.touches callee objects targets = true := by
  rw [touches, List.any_eq_true]
  refine ⟨object, member, ?_⟩
  cases object with
  | global | alloc =>
    cases names
    exact decide_eq_true isTarget
  | param index =>
    obtain ⟨set, isSet, pointee⟩ := names
    dsimp only
    rw [isSet, Option.getD_some, List.any_eq_true]
    rcases pointee with anything | pointee
    · exact ⟨_, anything, by simp⟩
    · exact ⟨_, pointee, by simp [isTarget]⟩

theorem callMayRead_of_object {targets : Option (List AbstractObject)}
    (reads : A.MayReadObject callee target)
    (isTarget : ∀ list, targets = some list → target ∈ list) :
    A.callMayRead callee targets = true := by
  simp only [callMayRead, Bool.or_eq_true]
  rcases reads with anything | ⟨object, member, names⟩
  · exact .inl anything
  · right
    cases targets with
    | none =>
      have some : (A.effects callee).reads ≠ [] := List.ne_nil_of_mem member
      simp [FunctionEffects.mayReadMemory, some]
    | some list => exact touches_of_names member names (isTarget list rfl)

theorem callMayWrite_of_object {targets : Option (List AbstractObject)}
    (writes : A.MayWriteObject callee target)
    (isTarget : ∀ list, targets = some list → target ∈ list) :
    A.callMayWrite callee targets = true := by
  simp only [callMayWrite, Bool.or_eq_true]
  rcases writes with anything | ⟨object, member, names⟩
  · exact .inl anything
  · right
    cases targets with
    | none =>
      have some : (A.effects callee).writes ≠ [] := List.ne_nil_of_mem member
      simp [FunctionEffects.mayWriteMemory, some]
    | some list => exact touches_of_names member names (isTarget list rfl)

end EffectAnalysis

/-- The object does not lie in the frame of another function. -/
def AbstractObject.Visible (func : Function) (target : AbstractObject) : Prop :=
  ∀ {owner inst}, target = .alloc owner inst → owner = func

namespace EffectAnalysis

variable {A : EffectAnalysis} {callee func : Function} {target : AbstractObject}

/-- Collecting the roots of a set of objects keeps those that are visible, and fails
on an unknown one. -/
theorem mem_collected (visible : target.Visible func) {set : List AbstractObject}
    {acc roots : List WriteRoot}
    (collected : set.foldlM (fun roots pointee =>
      match pointee with
      | .global inst => some (roots ++ [.global inst])
      | .alloc owner inst => some (if owner = func then roots ++ [.locals func inst] else roots)
      | .unknown => none) acc = some roots)
    (isMember : .unknown ∈ set ∨ target ∈ set ∨ target ∈ acc.map WriteRoot.object) :
    target ∈ roots.map WriteRoot.object := by
  induction set generalizing acc with
  | nil =>
    obtain rfl := Option.some.inj collected
    simpa using isMember
  | cons first set ih =>
    rw [List.foldlM_cons] at collected
    obtain ⟨acc', isStep, collected⟩ := Option.bind_eq_some_iff.mp collected
    refine ih collected ?_
    cases first with
    | unknown => cases isStep
    | global inst =>
      obtain rfl := Option.some.inj isStep
      rcases isMember with anything | inSet | inAcc
      · exact .inl (by simpa using anything)
      · rcases List.mem_cons.mp inSet with rfl | later
        · exact .inr (.inr (by simp [WriteRoot.object]))
        · exact .inr (.inl later)
      · exact .inr (.inr (by rw [List.map_append]; exact List.mem_append_left _ inAcc))
    | alloc owner inst =>
      obtain rfl := Option.some.inj isStep
      rcases isMember with anything | inSet | inAcc
      · exact .inl (by simpa using anything)
      · rcases List.mem_cons.mp inSet with rfl | later
        · obtain rfl := visible rfl
          exact .inr (.inr (by simp [WriteRoot.object]))
        · exact .inr (.inl later)
      · right; right
        split
        · rw [List.map_append]
          exact List.mem_append_left _ inAcc
        · exact inAcc

/-- The roots of an object a summary names, seen from the function. -/
theorem mem_rootsOf (visible : target.Visible func) {object : EffectObject} {roots : List WriteRoot}
    (names : A.Names callee object target) (isRoots : A.rootsOf callee func object = some roots) :
    target ∈ roots.map WriteRoot.object := by
  cases object with
  | global inst =>
    cases names
    obtain rfl := Option.some.inj isRoots
    exact List.mem_singleton_self _
  | alloc owner inst =>
    cases names
    obtain rfl := visible rfl
    obtain rfl := Option.some.inj isRoots
    simp [WriteRoot.object]
  | param index =>
    obtain ⟨set, isSet, pointee⟩ := names
    rw [rootsOf, isSet, Option.getD_some] at isRoots
    refine mem_collected visible isRoots ?_
    rcases pointee with anything | member
    · exact .inl anything
    · exact .inr (.inl member)

theorem mem_callReadRoots (visible : target.Visible func) {roots : List WriteRoot}
    (reads : A.MayReadObject callee target) (isRoots : A.callReadRoots callee func = some roots) :
    target ∈ roots.map WriteRoot.object := by
  simp only [callReadRoots] at isRoots
  split at isRoots
  · cases isRoots
  · next known =>
      rcases reads with anything | ⟨object, member, names⟩
      · exact absurd anything known
      · obtain ⟨lists, isLists, rfl⟩ := Option.map_eq_some_iff.mp isRoots
        clear isRoots
        generalize (A.effects callee).reads = objects at member isLists
        induction objects generalizing lists with
        | nil => cases member
        | cons first objects ih =>
          rw [List.mapM_cons] at isLists
          obtain ⟨list, isList, isLists⟩ := Option.bind_eq_some_iff.mp isLists
          obtain ⟨rest, isRest, isLists⟩ := Option.bind_eq_some_iff.mp isLists
          obtain rfl := Option.some.inj isLists
          rw [List.flatten_cons, List.map_append, List.mem_append]
          rcases List.mem_cons.mp member with rfl | later
          · exact .inl (mem_rootsOf visible names isList)
          · exact .inr (ih rest later isRest)

end EffectAnalysis

end AnonCompiler.Opt
