import AnonCompiler.Ir.Cfg

/-!
# Loop rotation

The rewrite of countdown loops in `opt/passes/rotate_loops.rs`.  `rotate_countdown`
moves the test of a loop `while (v)` from the header to the latch, when every other
edge into the header passes a constant that is not zero.  The edge the pass calls the
back edge is the one that passes anything else.

The sets of users the source keeps with a block are computed from the arena; the
order in which the source walks them does not matter here.
-/

set_option autoImplicit false

namespace AnonCompiler.Opt.RotateLoops

open Ir

/-- The arguments of a jump. -/
def jumpArgs (F : FunctionData) (inst : Inst) : Option (List Inst) :=
  match F.kind inst with
  | some (.jump _ args) => some args
  | _ => none

/-- A header that tests one of its parameters, and the edge that comes back to
it. -/
structure Countdown where
  /-- The branch the header ends in. -/
  terminator : Inst
  /-- The parameter it tests. -/
  cond : Inst
  body : BasicBlock
  exit : BasicBlock
  backEdge : Inst
  backArgs : List Inst
  /-- The argument of the back edge for the tested parameter. -/
  tested : Inst
deriving DecidableEq, Repr

/-- The condition and the targets of a branch that passes no arguments, to two
blocks without parameters. -/
def bareBranch (F : FunctionData) (terminator : Inst) : Option (Inst × BasicBlock × BasicBlock) :=
  match F.kind terminator with
  | some (.branch cond body tArgs exit fArgs) =>
    if body = exit ∨ tArgs ≠ [] ∨ fArgs ≠ [] ∨ F.blockParams body ≠ [] ∨ F.blockParams exit ≠ []
    then none else some (cond, body, exit)
  | _ => none

/-- The jump passes a constant that is not zero at the position. -/
def passesNonzero (P : Program) (F : FunctionData) (position : Nat) (pred : Inst) : Bool :=
  ((jumpArgs F pred).bind (·[position]?)).any fun arg =>
    match kindIn P F arg with
    | some (.integer value) => value ≠ 0
    | _ => false

/-- Some instruction of the block uses a parameter in the list, other than
`except`. -/
def mentions (F : FunctionData) (bb : BasicBlock) (params : List Inst) (except : Inst) : Bool :=
  ((F.blockInsts bb).getD []).any fun inst =>
    (F.kind inst).any fun kind => kind.instUsage.any fun used => used ∈ params && used ≠ except

def recognizeCountdown (P : Program) (F : FunctionData) (header : BasicBlock) : Option Countdown :=
  (F.terminator header).bind fun terminator =>
    (bareBranch F terminator).bind fun (cond, body, exit) =>
      let params := F.blockParams header
      let position := params.idxOf cond
      let preds := F.bbUsedBy header
      if cond ∈ params ∧ preds.all (fun pred => (jumpArgs F pred).any (·.length = params.length)) ∧
          preds.any (passesNonzero P F position) ∧ !mentions F exit params cond then
        match preds.filter (!passesNonzero P F position ·) with
        | [backEdge] =>
          (jumpArgs F backEdge).bind fun backArgs =>
            (backArgs[position]?).map fun tested =>
              { terminator, cond, body, exit, backEdge, backArgs, tested }
        | _ => none
      else none

/-- Move the test to the latch. -/
def applyCountdown (F : FunctionData) (header : BasicBlock) (c : Countdown) : FunctionData :=
  (F.replaceInst c.backEdge ⟨.unit, .branch c.tested header c.backArgs c.exit []⟩).replaceInst
    c.terminator ⟨.unit, .jump c.body []⟩

def rotateCountdown (P : Program) (F : FunctionData) (header : BasicBlock) : Option FunctionData :=
  (recognizeCountdown P F header).map (applyCountdown F header)

/-! ## What has been recognized -/

/-- What the recognition has checked. -/
structure Countdown.Valid (P : Program) (F : FunctionData) (header : BasicBlock) (c : Countdown) :
    Prop where
  isTerminator : F.terminator header = some c.terminator
  branch : F.kind c.terminator = some (.branch c.cond c.body [] c.exit [])
  bodyParams : F.blockParams c.body = []
  exitParams : F.blockParams c.exit = []
  isParam : c.cond ∈ F.blockParams header
  backEdge : F.kind c.backEdge = some (.jump header c.backArgs)
  tested : c.backArgs[(F.blockParams header).idxOf c.cond]? = some c.tested
  jumps : ∀ {pred}, pred ∈ F.bbUsedBy header → ∃ args, F.kind pred = some (.jump header args)
  enters : ∀ {pred}, pred ∈ F.bbUsedBy header → pred ≠ c.backEdge →
    passesNonzero P F ((F.blockParams header).idxOf c.cond) pred = true

variable {F : FunctionData} {inst : Inst}

theorem jumpArgs_eq_some {args : List Inst} (h : jumpArgs F inst = some args) :
    ∃ target, F.kind inst = some (.jump target args) := by
  unfold jumpArgs at h
  split at h
  · next target args' kind =>
      cases h
      exact ⟨target, kind⟩
  · cases h

theorem bareBranch_eq_some {terminator cond : Inst} {body exit : BasicBlock}
    (h : bareBranch F terminator = some (cond, body, exit)) :
    F.kind terminator = some (.branch cond body [] exit []) ∧ F.blockParams body = [] ∧
      F.blockParams exit = [] := by
  unfold bareBranch at h
  split at h
  · next cond' body' tArgs exit' fArgs kind =>
      split at h
      · cases h
      · next bare =>
          cases h
          simp only [not_or, ne_eq, not_not] at bare
          obtain ⟨-, rfl, rfl, bodyParams, exitParams⟩ := bare
          exact ⟨kind, bodyParams, exitParams⟩
  · cases h

theorem mem_bbUsedBy {bb : BasicBlock} :
    inst ∈ F.bbUsedBy bb ↔ inst < F.nextInst ∧ ∃ kind, F.kind inst = some kind ∧
      bb ∈ kind.bbUsage := by
  unfold FunctionData.bbUsedBy FunctionData.kind
  rw [List.mem_filter, List.mem_range]
  cases F.insts inst <;> simp

theorem recognizeCountdown_valid {P : Program} {header : BasicBlock} {c : Countdown}
    (h : recognizeCountdown P F header = some c) : c.Valid P F header := by
  unfold recognizeCountdown at h
  obtain ⟨terminator, isTerminator, h⟩ := Option.bind_eq_some_iff.mp h
  obtain ⟨⟨cond, body, exit⟩, isBranch, h⟩ := Option.bind_eq_some_iff.mp h
  obtain ⟨branch, bodyParams, exitParams⟩ := bareBranch_eq_some isBranch
  dsimp only at h
  split at h
  · next checks =>
      obtain ⟨isParam, jumps, -, -⟩ := checks
      have toHeader : ∀ {pred}, pred ∈ F.bbUsedBy header →
          ∃ args, F.kind pred = some (.jump header args) := by
        intro pred member
        obtain ⟨args, isArgs, -⟩ :=
          Option.any_eq_true _ _ |>.mp (List.all_eq_true.mp jumps pred member)
        obtain ⟨target, kind⟩ := jumpArgs_eq_some isArgs
        obtain ⟨-, kind', same, uses⟩ := mem_bbUsedBy.mp member
        obtain rfl := Option.some.inj (kind.symm.trans same)
        obtain rfl : header = target := by simpa [InstKind.bbUsage] using uses
        exact ⟨args, kind⟩
      split at h
      · next backEdge single =>
          obtain ⟨backArgs, isArgs, h⟩ := Option.bind_eq_some_iff.mp h
          obtain ⟨tested, isTested, rfl⟩ := Option.map_eq_some_iff.mp h
          have isBack : backEdge ∈ (F.bbUsedBy header).filter
              (!passesNonzero P F ((F.blockParams header).idxOf cond) ·) := by simp [single]
          obtain ⟨args, kind⟩ := toHeader (List.mem_filter.mp isBack).1
          obtain ⟨target, kind'⟩ := jumpArgs_eq_some isArgs
          cases kind.symm.trans kind'
          refine ⟨isTerminator, branch, bodyParams, exitParams, isParam, kind, isTested,
            toHeader, ?_⟩
          intro pred member other
          by_contra notNonzero
          have isOther : pred ∈ (F.bbUsedBy header).filter
              (!passesNonzero P F ((F.blockParams header).idxOf cond) ·) :=
            List.mem_filter.mpr ⟨member, by simpa using notNonzero⟩
          rw [single, List.mem_singleton] at isOther
          exact other isOther
      · cases h
  · cases h

end AnonCompiler.Opt.RotateLoops
