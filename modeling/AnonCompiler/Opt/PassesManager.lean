import AnonCompiler.Opt.Diamond
import AnonCompiler.Opt.GvnPreRedundancy

/-!
# The pass manager

`opt/pass.rs`.  A manager runs its initial passes once and then the other ones in
rounds, until a round changes nothing.  After `maxPipelineIterations` rounds that all
changed something it panics.

A pass is any function on programs that reports whether it changed something; it may
keep a state between runs.  `GVNPRE` makes the first redundancy of a function go and no
other one, so a function with as many redundancies as there are rounds keeps the
manager from coming to an end.
-/

set_option autoImplicit false

namespace AnonCompiler.Opt

open Ir

/-- A pass with the state it is in; `none` is a run that does not come to an end. -/
structure Pass where
  State : Type
  state : State
  run : State → Program → Option (State × Program × Bool)

/-- The default of `Pass::run`: one run over every function of the layout. -/
def runFunctions (runOn : Program → FunctionData → Option (Option FunctionData)) :
    List Function → Program → Option (Program × Bool)
  | [], P => some (P, false)
  | f :: fs, P =>
    match P.funcData f with
    | none => none
    | some F =>
      match runOn P F with
      | none => none
      | some none => runFunctions runOn fs P
      | some (some F') =>
        (runFunctions runOn fs { P with funcs := P.funcs.set f F' }).map fun result =>
          (result.1, true)

namespace GvnPre

def run (fuel : Nat) (P : Program) : Option (Program × Bool) :=
  runFunctions (runOn fuel) P.functionLayout P

/-- `GVNPRE`; the fuel is that of its own loops. -/
def pass (fuel : Nat) : Pass where
  State := Unit
  state := ()
  run := fun state P => (run fuel P).map fun result => (state, result.1, result.2)

end GvnPre

namespace PassesManager

/-- Run the passes one after the other; the flag says whether one of them changed
something. -/
def runAll : List Pass → Program → Option (List Pass × Program × Bool)
  | [], P => some ([], P, false)
  | pass :: passes, P =>
    match pass.run pass.state P with
    | none => none
    | some (state, Q, changed) =>
      match runAll passes Q with
      | none => none
      | some (passes', R, changed') => some ({ pass with state } :: passes', R, changed || changed')

/-- Why `run_passes` does not return: a pass does not, or the rounds were too few. -/
inductive Abort where
  | pass
  | notConverged
deriving DecidableEq, Repr

/-- The rounds; `left` of them may still be made. -/
def runRounds : Nat → Nat → List Pass → Program → Except Abort (Nat × Program)
  | 0, _, _, _ => .error .notConverged
  | left + 1, iteration, passes, P =>
    match runAll passes P with
    | none => .error .pass
    | some (_, Q, false) => .ok (iteration + 1, Q)
    | some (passes', Q, true) => runRounds left (iteration + 1) passes' Q

end PassesManager

structure PassesManager where
  passes : List Pass
  fixedPointStart : Nat

namespace PassesManager

def maxPipelineIterations : Nat := 100

def initial (m : PassesManager) : List Pass := m.passes.take m.fixedPointStart

def fixedPoint (m : PassesManager) : List Pass := m.passes.drop m.fixedPointStart

/-- The number of rounds and the program they leave. -/
def runPasses (m : PassesManager) (P : Program) : Except Abort (Nat × Program) :=
  match runAll m.initial P with
  | none => .error .pass
  | some (_, Q, _) => runRounds maxPipelineIterations 0 m.fixedPoint Q

def Returns (m : PassesManager) (P : Program) : Prop := ∃ result, m.runPasses P = .ok result

/-! ## Rounds -/

/-- The passes run to the end and change nothing; this is the program they leave. -/
def Quiet (passes : List Pass) (P Q : Program) : Prop :=
  ∃ passes', runAll passes P = some (passes', Q, false)

variable {passes before after : List Pass} {P Q : Program}

variable {fuel : Nat} {passes' : List Pass}

end PassesManager

/-! ## One run over all functions -/

namespace GvnPre

variable {fuel : Nat} {P Q : Program} {F : FunctionData}

variable {F' : FunctionData} {count : Nat} {fs : List Function}

/-- A run over one function reads the function and the globals. -/
theorem runOn_congr (same : Q.globals = P.globals) : runOn fuel Q F = runOn fuel P F := by
  have arena : ∀ F, Q.instData F = P.instData F := by
    intro F
    funext inst
    simp [Program.instData, same]
  have replace : ∀ F, Gvn.visitAndReplace Q F = Gvn.visitAndReplace P F := by
    intro F
    funext rep repWith
    simp only [Gvn.visitAndReplace, Gvn.replaceKind, kindIn, arena]
  have byParam : ∀ F, replaceByParam Q F = replaceByParam P F := by
    intro F
    funext rewrite R
    simp only [replaceByParam, replace]
  simp only [runOn, arena, applyRewrite, applyFull, applyInsertion, insertBeforeJump, insertOnSplit,
    byParam]

/-- The loops of the search come to an end, and every value they read is there. -/
def SearchEnds (fuel : Nat) (P : Program) (F : FunctionData) : Prop :=
  ∃ found, findRewrite (P.instData F) F fuel = some found

/-- No join of the function recomputes an expression that all its edges have, or all
but one. -/
def Settled (fuel : Nat) (P : Program) (F : FunctionData) : Prop :=
  SearchEnds fuel P F ∧ ∀ rewrite, ¬ Redundancy (P.instData F) F fuel rewrite

/-- The function without its first redundancy. -/
def Reduces (fuel : Nat) (P : Program) (F F' : FunctionData) : Prop :=
  SearchEnds fuel P F ∧ ∃ rewrite, FirstRedundancy (P.instData F) F fuel rewrite ∧
    applyRewrite P F rewrite = some F'

/-- A run leaves a function alone when it has no redundancy. -/
theorem settled_iff : Settled fuel P F ↔ runOn fuel P F = some none := by
  have none : (∀ rewrite, ¬ Redundancy (P.instData F) F fuel rewrite) ↔
      ∀ rewrite, ¬ FirstRedundancy (P.instData F) F fuel rewrite := by
    rw [← not_exists, ← not_exists, exists_firstRedundancy_iff]
  rw [Settled, none, runOn]
  constructor
  · rintro ⟨⟨found, ran⟩, none⟩
    cases found with
    | none => rw [ran]
    | some rewrite => exact absurd ((findRewrite_spec ran rewrite).mp rfl) (none rewrite)
  · intro left
    split at left
    · cases left
    · next ran =>
        refine ⟨⟨_, ran⟩, fun rewrite first => ?_⟩
        cases (findRewrite_spec ran rewrite).mpr first
    · obtain ⟨_, _, same⟩ := Option.map_eq_some_iff.mp left
      cases same

/-- A run makes the first redundancy go. -/
theorem reduces_iff : Reduces fuel P F F' ↔ runOn fuel P F = some (some F') := by
  rw [runOn]
  constructor
  · rintro ⟨⟨found, ran⟩, rewrite, first, applied⟩
    obtain rfl := (findRewrite_spec ran rewrite).mpr first
    rw [ran]
    exact congrArg (Option.map some) applied
  · intro rewritten
    split at rewritten
    · cases rewritten
    · cases rewritten
    · next rewrite ran =>
        obtain ⟨F'', applied, same⟩ := Option.map_eq_some_iff.mp rewritten
        cases same
        exact ⟨⟨_, ran⟩, rewrite, (findRewrite_spec ran rewrite).mp rfl, applied⟩

/-- When the first redundancy is made to go again and again, fewer times than the given
number leave none. -/
inductive EndsWithin (fuel : Nat) (P : Program) : Nat → FunctionData → Prop
  | settled {count : Nat} {F : FunctionData} (settled : Settled fuel P F) :
      EndsWithin fuel P (count + 1) F
  | reduced {count : Nat} {F F' : FunctionData} (reduces : Reduces fuel P F F')
      (ends : EndsWithin fuel P count F') : EndsWithin fuel P (count + 1) F

theorem settled_congr (same : Q.globals = P.globals) : Settled fuel Q F ↔ Settled fuel P F := by
  rw [settled_iff, settled_iff, runOn_congr same]

theorem reduces_congr (same : Q.globals = P.globals) :
    Reduces fuel Q F F' ↔ Reduces fuel P F F' := by
  rw [reduces_iff, reduces_iff, runOn_congr same]

theorem EndsWithin.congr (same : Q.globals = P.globals) (ends : EndsWithin fuel Q count F) :
    EndsWithin fuel P count F := by
  induction ends with
  | settled settled => exact .settled ((settled_congr same).mp settled)
  | reduced reduces _ ih => exact .reduced ((reduces_congr same).mp reduces) ih

end GvnPre

namespace PassesManager

open GvnPre

namespace Diamond

open GvnPre.Diamond

/-- A caller of the diamond, whose constants keep it from being idle. -/
def callerListing : Listing where
  retTy := .int32
  name := "main"
  paramsTy := []
  layout := [(0, [3, 4])]
  insts := [(0, ⟨.int32, .integer 1⟩), (1, ⟨.int32, .integer 2⟩), (2, ⟨.int32, .integer 3⟩),
    (3, ⟨.int32, .call 0 [0, 1, 2]⟩), (4, ⟨.unit, .ret (some 3)⟩)]
  nextInst := 5
  blockParams := []
  nextBlock := 1

/-- The diamond with `n` copies, of which `k` have become parameters, and a caller. -/
def program (n k : Nat) : Program where
  funcs := [diamond n k, callerListing.toFunctionData]
  functionLayout := [0, 1]
  globals := fun _ => none
  globalLayout := []
  mainFunction := some 1

variable {n k : Nat}

end Diamond

end PassesManager

end AnonCompiler.Opt
