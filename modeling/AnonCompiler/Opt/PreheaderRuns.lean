import AnonCompiler.Ir.Shaped
import AnonCompiler.Opt.Preheader

/-!
# Runs with a preheader

The function with a preheader runs as the one without it, but for a visit of the
preheader before each visit of the header from outside.  The values pass through the
parameters of the preheader unchanged, since every argument has the type of the parameter
it is passed to.
-/

set_option autoImplicit false

namespace AnonCompiler.Opt

open Ir Lib

variable {X : Ctx} {F : FunctionData} {vals : List Val}

/-- Other targets, and back. -/
theorem remapRefs_targets {g g' : BasicBlock → BasicBlock} {kind : InstKind}
    (back : ∀ bb ∈ kind.bbUsage, g' (g bb) = bb) :
    (kind.remapRefs id g).remapRefs id g' = kind := by
  cases kind with
  | jump | branch => simpa [InstKind.remapRefs, InstKind.bbUsage] using back
  | memZero dest byteLen => cases byteLen <;> rfl
  | ret value => cases value <;> rfl
  | _ => simp [InstKind.remapRefs]

@[simp] theorem instUsage_remapTargets (g : BasicBlock → BasicBlock) (kind : InstKind) :
    (kind.remapRefs id g).instUsage = kind.instUsage := by
  cases kind with
  | memZero dest byteLen => cases byteLen <;> rfl
  | ret value => cases value <;> rfl
  | _ => simp [InstKind.remapRefs, InstKind.instUsage]

theorem exec_goto_mem {a : Activation} {m m' : Mem} {inst : Inst} {target : BasicBlock}
    (effect : exec X F a m inst = some (.goto target vals)) :
    exec X F a m' inst = some (.goto target vals) := by
  obtain ⟨⟨ty, kind⟩, found⟩ := exec_isSome effect
  cases executes_of_exec found effect with
  | jump isJump operands =>
    cases isJump
    exact (exec_jump found).mpr ⟨_, operands, rfl⟩
  | branch isBranch decided operands =>
    cases isBranch
    exact (exec_branch found).mpr ⟨_, _, decided, operands, rfl⟩

theorem operands_of_getElem {env : Env} {insts : List Inst} (length : vals.length = insts.length)
    (each : ∀ (i : Nat) (x : Inst) (v : Val), insts[i]? = some x → vals[i]? = some v →
    X.operand F env x = some v) :
    X.operands F env insts = some vals := by
  induction insts generalizing vals with
  | nil =>
    obtain rfl := List.length_eq_zero_iff.mp length
    rfl
  | cons x insts ih =>
    cases vals with
    | nil => cases length
    | cons v vals =>
      have first := each 0 x v rfl rfl
      have later := ih (Nat.succ.inj length) fun i y w isY isW => each (i + 1) y w isY isW
      rw [Ctx.operands] at later ⊢
      rw [List.mapM_cons, first, later]
      rfl

section Preheaded

variable {P : Program} {F F' : FunctionData} {X : Ctx} {header : BasicBlock} {moves : Inst → Bool}
  {a a' b b' : Activation} {m m' : Mem} {inst : Inst} {rest : List Inst} {done : List Inst}
  (h : Preheaded F F' header moves) (room : preheaderJump F header < globalIdStart)
  (wellFormed : F.WellFormed)

/-! ## The arena -/

variable {x : Inst}

omit h in
include wellFormed in
theorem not_isNew_of_insts (header : BasicBlock) (present : F.insts x ≠ none) : ¬ IsNew
    F header x := fun new =>
  Nat.not_lt.mpr new.1 (wellFormed.inst_lt present)

omit h in
include room in
theorem not_isNew_of_isGlobal (isGlobal : x.isGlobal = true) : ¬ IsNew F header x :=
  fun new => Nat.not_le.mpr room ((of_decide_eq_true isGlobal : globalIdStart ≤ x).trans new.2)

include h

theorem Preheaded.sameTy (old : ¬ IsNew F header x) :
    (F'.insts x).map InstData.ty = (F.insts x).map InstData.ty := by
  rw [h.insts old, Option.map_map]
  rfl

include wellFormed in
theorem Preheaded.sameConsts : SameConsts F F' := by
  intro x
  by_cases new : IsNew F header x
  · have absent : F.insts x = none := by
      by_contra present
      exact not_isNew_of_insts wellFormed header present new
    refine .inr ⟨fun data found => ?_, fun data found => ?_⟩
    · rw [absent] at found
      cases found
    · rcases Nat.lt_or_eq_of_le new.2 with param | isJump
      · obtain ⟨i, rfl⟩ := Nat.exists_eq_add_of_le new.1
        have inside : i < (F.blockParams header).length := Nat.lt_of_add_lt_add_left param
        obtain ⟨data', index, -, found'⟩ := h.param (List.getElem?_eq_getElem inside)
        cases found.symm.trans found'
        rfl
      · rw [isJump, h.jump] at found
        cases found
        rfl
  · rw [h.insts new]
    cases found : F.insts x with
    | none => exact .inl rfl
    | some data =>
      obtain ⟨ty, kind⟩ := data
      cases isConst : Ctx.isConst kind with
      | true =>
        refine .inl ?_
        cases kind <;> first
          | cases isConst; done
          | simp [InstKind.remapRefs]
      | false =>
        refine .inr ⟨fun data' same => ?_, fun data' same => ?_⟩
        · cases same
          exact isConst
        · cases same
          cases kind with
          | memZero dest byteLen => cases byteLen <;> rfl
          | _ => exact isConst

include wellFormed in
theorem Preheaded.sameOperand {env env' : Env} (old : ¬ IsNew F header x) (same : env' x = env x) :
    X.SameOperand F F' env env' x := by
  refine (h.sameConsts wellFormed).sameOperand ?_ same
  unfold Ctx.instData
  split
  · rfl
  · exact h.sameTy old

/-! ## One instruction -/

omit h in
include wellFormed in
/-- An instruction uses nothing new. -/
theorem used_old (ssa : F.Ssa) (room : preheaderJump F header < globalIdStart) (place : a.At F done)
    (current : a.rest = inst :: rest) {data : InstData} (found : F.insts inst = some data)
    (used : x ∈ data.kind.instUsage) : ¬ IsNew F header x := by
  rcases ssa.uses (place.placed current) found used with (isGlobal | ⟨data', found', -⟩) | available
  · exact not_isNew_of_isGlobal room isGlobal
  · exact not_isNew_of_insts wellFormed header (by simp [found'])
  · refine not_isNew_of_insts wellFormed header ?_
    rcases FunctionData.Ssa.avail_defined place.reached place.block available with
      laidOut | ⟨_, isParam⟩
    · obtain ⟨data', found', -⟩ := wellFormed.laidOut laidOut
      simp [found']
    · obtain ⟨data', index, found', -⟩ := wellFormed.blockParam isParam
      simp [found']

/-- The same place with the same values, apart from new ones. -/
structure SamePlace (F : FunctionData) (header : BasicBlock) (a a' : Activation) : Prop where
  func : a'.func = a.func
  frame : a'.frame = a.frame
  env : ∀ x, ¬ IsNew F header x → a'.env x = a.env x

section Exec

variable (ssa : F.Ssa) (place : a.At F done) (current : a.rest = inst :: rest)
  (same : SamePlace F header a a')

include room wellFormed ssa place current same

theorem Preheaded.exec_of_exec {e : Effect} (effect : exec X F a m inst = some e) :
    exec X F' a' m inst =
      some (e.retarget (if moves inst then divert header F.nextBlock else id)) := by
  obtain ⟨⟨ty, kind⟩, found⟩ := exec_isSome effect
  have old := not_isNew_of_insts wellFormed header (by simp [found] : F.insts inst ≠ none)
  have found' := h.insts old
  rw [found, Option.map_some] at found'
  refine exec_remap id _ found found' (fun _ => ⟨rfl, same.func, same.frame⟩)
    (fun x used => ?_) effect
  have oldX := used_old wellFormed ssa room place current found used
  exact (h.sameOperand wellFormed oldX (same.env x oldX)).carries

theorem Preheaded.exec_of_exec'
    (inside : ∀ {data}, F.insts inst = some data → F.nextBlock ∉ data.kind.bbUsage) {e' : Effect}
    (effect : exec X F' a' m inst = some e') :
    ∃ e, exec X F a m inst = some e ∧
      e' = e.retarget (if moves inst then divert header F.nextBlock else id) := by
  obtain ⟨data', found'⟩ := exec_isSome effect
  have laidOut := FunctionData.mem_layoutInsts (place.placed current)
    (List.mem_append_right _ List.mem_cons_self)
  obtain ⟨⟨ty, kind⟩, found, -⟩ := wellFormed.laidOut laidOut
  have old := not_isNew_of_insts wellFormed header (by simp [found] : F.insts inst ≠ none)
  have isData := h.insts old
  rw [found, Option.map_some] at isData
  cases found'.symm.trans isData
  -- the targets back to what they were
  have back : (kind.remapRefs id (if moves inst then divert header F.nextBlock else id)).remapRefs
    id
      (fun bb => if bb = F.nextBlock then header else bb) = kind := by
    refine remapRefs_targets fun bb isTarget => ?_
    have notNew : bb ≠ F.nextBlock := fun isNew => inside found (isNew ▸ isTarget)
    by_cases moved : moves inst = true
    · by_cases isHeader : bb = header
      · simp [moved, divert, isHeader]
      · simp [moved, divert, isHeader, notNew]
    · simp [moved, notNew]
  have effect₀ : exec X F a m inst =
      some (e'.retarget fun bb => if bb = F.nextBlock then header else bb) := by
    have found₀ : F.insts inst = some ⟨ty, (kind.remapRefs id
        (if moves inst then divert header F.nextBlock else id)).remapRefs id
          (fun bb => if bb = F.nextBlock then header else bb)⟩ := by rw [back, found]
    refine exec_remap id _ isData found₀
      (fun _ => ⟨rfl, same.func.symm, same.frame.symm⟩) (fun x used => ?_) effect
    rw [instUsage_remapTargets] at used
    have oldX := used_old wellFormed ssa room place current found used
    obtain ⟨value, types⟩ := h.sameOperand (X := X) wellFormed oldX (same.env x oldX)
    exact Ctx.SameOperand.carries ⟨value.symm, types.symm⟩
  exact ⟨_, effect₀, Option.some.inj (effect.symm.trans
    (h.exec_of_exec room wellFormed ssa place current same effect₀))⟩

end Exec

/-! ## Entering blocks -/

section Enter

variable (same : SamePlace F header a a') {target : BasicBlock} {vals : List Val}

include wellFormed same

/-- The parameters of an old block. -/
theorem Preheaded.samePlace_bind {block block' : BasicBlock} {insts insts' : List Inst} :
    SamePlace F header
      { a with
        env := bindParams F a.env (F.blockParams target) vals, block := block, rest := insts }
      { a' with
        env := bindParams F' a'.env (F.blockParams target) vals, block := block',
        rest := insts' } where
  func := same.func
  frame := same.frame
  env := fun x old => by
    refine bindParams_sameTypes (fun p isParam => ?_) (same.env x old)
    obtain ⟨data, index, found, -⟩ := wellFormed.blockParam isParam
    exact h.sameTy (not_isNew_of_insts wellFormed header (by simp [found]))

theorem Preheaded.enter (notNew : target ≠ F.nextBlock)
    (entered : a.enterBlock F target vals = some b) :
    ∃ b', a'.enterBlock F' target vals = some b' ∧ SamePlace F header b b' ∧ b'.block = b.block ∧
      b'.rest = b.rest := by
  obtain ⟨length, insts, block, rfl⟩ := Activation.enterBlock_eq_some.mp entered
  refine ⟨_, Activation.enterBlock_eq_some.mpr ⟨?_, insts, ?_, rfl⟩, ?_, rfl, rfl⟩
  · rwa [h.oldParams notNew]
  · rwa [h.oldBlock notNew]
  · rw [h.oldParams notNew]
    exact h.samePlace_bind wellFormed same

theorem Preheaded.enter' (notNew : target ≠ F.nextBlock)
    (entered : a'.enterBlock F' target vals = some b') :
    ∃ b, a.enterBlock F target vals = some b ∧ SamePlace F header b b' ∧ b'.block = b.block ∧
      b'.rest = b.rest := by
  obtain ⟨length, insts, block, rfl⟩ := Activation.enterBlock_eq_some.mp entered
  rw [h.oldParams notNew] at length ⊢
  rw [h.oldBlock notNew] at block
  exact ⟨_, Activation.enterBlock_eq_some.mpr ⟨length, insts, block, rfl⟩,
    h.samePlace_bind wellFormed same, rfl, rfl⟩

omit wellFormed

/-- Arguments of the types of the parameters of the header. -/
def FitHeader (F : FunctionData) (header : BasicBlock) (vals : List Val) : Prop :=
  ∀ {i : Nat} {p : Inst} {data : InstData} {v : Val}, (F.blockParams header)[i]? = some p →
    F.insts p = some data → vals[i]? = some v → v.HasTy data.ty

include room in
theorem Preheaded.enter_preheader (length : vals.length = (F.blockParams header).length) :
    ∃ b', a'.enterBlock F' F.nextBlock vals = some b' ∧ SamePlace F header a b' ∧
      b'.block = F.nextBlock ∧ b'.rest = [preheaderJump F header] ∧
      (FitHeader F header vals → ∀ m, exec X F' b' m (preheaderJump F header) =
        some (.goto header vals)) := by
  have count : (preheaderParams F header).length = (F.blockParams header).length := by
    rw [preheaderParams, List.length_map, List.length_range]
  have nodup : (preheaderParams F header).Nodup :=
    List.nodup_range.map fun i j same => Nat.add_left_cancel same
  refine ⟨_, Activation.enterBlock_eq_some.mpr ⟨by rw [h.newParams, count, length], _, h.newBlock,
    rfl⟩, ⟨same.func, same.frame, fun x old => ?_⟩, rfl, rfl, fun fit m => ?_⟩
  · rw [← same.env x old, h.newParams]
    refine bindParams_of_notMem fun isParam => old ?_
    obtain ⟨i, inside, rfl⟩ := List.mem_map.mp isParam
    exact ⟨Nat.le_add_right .., Nat.add_le_add_left (List.mem_range.mp inside).le _⟩
  · refine (exec_jump h.jump).mpr ⟨vals, operands_of_getElem (by rw [count, length]) ?_, rfl⟩
    intro i x v isX isV
    have inside : i < (F.blockParams header).length := by
      rw [← count]
      exact (List.getElem?_eq_some_iff.mp isX).1
    have isNew : F.nextInst + i = x := by
      rw [preheaderParams, List.getElem?_map, List.getElem?_range inside] at isX
      exact Option.some.inj isX
    obtain ⟨data, index, found, found'⟩ := h.param (List.getElem?_eq_getElem inside)
    rw [isNew] at found'
    have isLocal : x.isGlobal = false := by
      refine decide_eq_false (Nat.not_le.mpr ?_)
      rw [← isNew]
      exact (Nat.add_lt_add_left inside _).trans room
    have shape := fit (List.getElem?_eq_getElem inside) found isV
    rw [Ctx.operand, Ctx.instData, isLocal, if_neg Bool.false_ne_true, found']
    simp only [Ctx.isConst, Bool.false_eq_true, if_false]
    rw [h.newParams, bindParams_position nodup isX isV found', Val.fit_eq_self shape]

end Enter

/-! ## The runs -/

/-- What is known of an activation of the function. -/
structure Running (X : Ctx) (F : FunctionData) (a : Activation) : Prop where
  place : ∃ done, a.Consistent X F done
  shaped : Env.Shaped F a.env

/-- The two functions at the same place. -/
structure Alongside (X : Ctx) (F : FunctionData) (header : BasicBlock) (a a' : Activation) : Prop
    extends SamePlace F header a a' where
  running : Running X F a
  block : a'.block = a.block
  rest : a'.rest = a.rest

/-- The new function at the preheader, the old one still at the jump to the header. -/
structure AtPreheader (X : Ctx) (F F' : FunctionData) (header : BasicBlock) (a' a : Activation) :
    Prop where
  place : SamePlace F header a a'
  running : Running X F a
  rest : a'.rest = [preheaderJump F header]
  jumps : ∃ vals inst, a.rest = [inst] ∧ (∀ m, exec X F a m inst = some (.goto header vals)) ∧
    ∀ m, exec X F' a' m (preheaderJump F header) = some (.goto header vals)

def notPreheader (F : FunctionData) (bb : BasicBlock) : Bool := bb ≠ F.nextBlock

section Simulation

variable (ssa : F.Ssa) (types : F.Shaped P) (globals : X.globals = P.globals)

variable {func : Function} {frame : Nat} {args vals : List Val} {target : BasicBlock}
  {data : InstData}

omit h in
include types wellFormed ssa in
theorem Running.openStep {seen : List Seen} (running : Running X F a)
    (step : OpenStep X F a m seen (.running b m')) : Running X F b := by
  obtain ⟨⟨done, place⟩, shaped⟩ := running
  exact ⟨place.openStep wellFormed ssa step, shaped.openStep types wellFormed step⟩

omit h in
theorem Running.start (wellFormed : F.WellFormed)
    (started : Activation.start F func frame args = some a) : Running X F a :=
  ⟨⟨[], .start wellFormed started⟩, .start started⟩

omit h in
include types globals wellFormed in
/-- What is passed to the header fits its parameters. -/
theorem fitHeader_of_goto (running : Running X F a) (current : a.rest = inst :: rest)
    (effect : exec X F a m inst = some (.goto header vals)) :
    rest = [] ∧ FitHeader F header vals ∧ vals.length = (F.blockParams header).length := by
  obtain ⟨⟨done, place⟩, shaped⟩ := running
  obtain ⟨ends, e, leaves, rfl, -, operands⟩ :=
    wellFormed.edge_of_goto (place.placed current) effect
  have sameTypes := types.edge leaves
  refine ⟨ends, fun {i p data v} isParam found isVal => ?_, ?_⟩
  · have position := Ctx.operands_getElem operands i
    rw [isVal] at position
    obtain ⟨x, isArg, isV⟩ := Option.bind_eq_some_iff.mp position.symm
    refine shaped.operand types wellFormed globals isV ?_
    have sameTy := congrArg (·[i]?) sameTypes
    simp only [List.getElem?_map, isArg, isParam, Option.map_some, Option.some.injEq] at sameTy
    rw [sameTy, Program.typeOf, wellFormed.instData_eq found]
    rfl
  · have count := congrArg List.length sameTypes
    rw [List.length_map, List.length_map] at count
    rw [Ctx.operands_length operands, count]

omit h in
theorem Alongside.define (same : Alongside X F header a a') (current : a.rest = inst :: rest)
    {v : Val} (running : Running X F (a.define inst v)) :
    Alongside X F header (a.define inst v) (a'.define inst v) := by
  refine ⟨⟨same.func, same.frame, fun x old => ?_⟩, running, same.block, ?_⟩
  · by_cases isInst : x = inst
    · subst isInst
      simp [Activation.define]
    · rw [Activation.define_env_of_ne isInst, Activation.define_env_of_ne isInst, same.env x old]
  · simp [Activation.define, same.rest]

omit h in
theorem shownBy_visit_old (notNew : target ≠ F.nextBlock) :
    shownBy (notPreheader F) [.visit target vals] = [.visit target vals] := by
  simp [shownBy, notPreheader, notNew]

omit h in
theorem shownBy_visit_new : shownBy (notPreheader F) [.visit F.nextBlock vals] = [] := by
  simp [shownBy, notPreheader]

omit h in
include wellFormed in
theorem ne_nextBlock_of_entered (entered : a.enterBlock F target vals = some b) :
    target ≠ F.nextBlock := by
  obtain ⟨-, insts, block, -⟩ := Activation.enterBlock_eq_some.mp entered
  exact (wellFormed.block_lt (FunctionData.mem_blocks block)).ne

omit h in
theorem diverted_cases (F : FunctionData) (header : BasicBlock) (moves : Inst → Bool) (inst : Inst)
    (target : BasicBlock) :
    (if moves inst then divert header F.nextBlock else id) target = target ∨
      target = header ∧
        (if moves inst then divert header F.nextBlock else id) target = F.nextBlock := by
  by_cases moved : moves inst = true
  · by_cases isHeader : target = header
    · simp [moved, divert, isHeader]
    · simp [moved, divert, isHeader]
  · simp [moved]

include wellFormed in
/-- What a call comes back with. -/
theorem Preheaded.resume (same : Alongside X F header a a') (current : a.rest = inst :: rest)
    (found : F.insts inst = some data) (value : Option Val) :
    a'.resume F' value = some (a'.define inst ((value.getD .undef).fit data.ty)) := by
  have old := not_isNew_of_insts wellFormed header (by simp [found] : F.insts inst ≠ none)
  have found' := h.insts old
  rw [found, Option.map_some] at found'
  exact Activation.resume_eq_some.mpr ⟨inst, rest, _, same.rest.trans current, found', rfl⟩

include room wellFormed ssa types globals in
/-- Every run without the preheader is one with it. -/
theorem Preheaded.cover : OpenCover X F F' (notPreheader F) (Alongside X F header) := by
  intro a a' m seen o same step
  obtain ⟨done, place⟩ := same.running.place
  have answer : ∀ {inst rest e}, a.rest = inst :: rest → exec X F a m inst = some e →
      exec X F' a' m inst =
        some (e.retarget (if moves inst then divert header F.nextBlock else id)) :=
    fun current effect => h.exec_of_exec room wellFormed ssa place.toAt current same.toSamePlace
      effect
  have going := fun {b m' seen} (step : OpenStep X F a m seen (.running b m')) =>
    same.running.openStep wellFormed ssa types step
  cases step with
  | @value inst rest v current effect =>
    exact ⟨[], _, .single (.value (same.rest.trans current) (answer current effect)), rfl,
      .running m (same.define current (going (.value current effect)))⟩
  | @write inst rest m' current effect =>
    refine ⟨[.write m'], _, .single (.write (same.rest.trans current) (answer current effect)),
      rfl, .running m' ⟨⟨same.func, same.frame, same.env⟩, going (.write current effect),
        same.block, ?_⟩⟩
    simp [Activation.next, same.rest]
  | @goto inst rest target vals b current effect entered =>
    have notNew := ne_nextBlock_of_entered wellFormed entered
    have effect' := answer current effect
    have current' := same.rest.trans current
    rcases diverted_cases F header moves inst target with kept | ⟨rfl, moved⟩
    · rw [Effect.retarget, kept] at effect'
      obtain ⟨b', entered', place', block', rest'⟩ :=
        h.enter wellFormed same.toSamePlace notNew entered
      exact ⟨_, _, .single (.goto current' effect' entered'), shownBy_visit_old notNew,
        .running m ⟨place', going (.goto current effect entered), block', rest'⟩⟩
    · rw [Effect.retarget, moved] at effect'
      obtain ⟨-, fit, length⟩ := fitHeader_of_goto wellFormed types globals same.running current
        effect
      obtain ⟨p, enteredP, placeP, -, restP, jump⟩ :=
        h.enter_preheader room same.toSamePlace length
      obtain ⟨b', entered', place', block', rest'⟩ := h.enter wellFormed placeP notNew entered
      refine ⟨_, _, .step (.goto current' effect' enteredP)
        (.single (.goto restP (jump fit m) entered')), ?_,
        .running m ⟨place', going (.goto current effect entered), block', rest'⟩⟩
      rw [shownBy_append, shownBy_visit_new, shownBy_visit_old notNew, List.nil_append]
  | @call inst rest callee vals value b m' current effect resumed =>
    obtain ⟨inst', rest', data, current', found, rfl⟩ := Activation.resume_eq_some.mp resumed
    obtain ⟨rfl, rfl⟩ := List.cons.inj (current.symm.trans current')
    have resumed' := h.resume wellFormed same current found value
    exact ⟨_, _, .single (.call m' (same.rest.trans current) (answer current effect) resumed'),
      rfl, .running m' (same.define current (going (.call m' current effect resumed)))⟩
  | @tailCall inst rest callee vals current effect =>
    exact ⟨_, _, .single (.tailCall (same.rest.trans current) (answer current effect)), rfl, .done⟩
  | @ret inst rest value current effect =>
    exact ⟨_, _, .single (.ret (same.rest.trans current) (answer current effect)), rfl, .done⟩

/-- The new function first: perhaps it is already at the preheader. -/
inductive Behind (X : Ctx) (F F' : FunctionData) (header : BasicBlock) :
    Activation → Activation → Prop where
  | alongside {a a' : Activation} (same : Alongside X F header a a') : Behind X F F' header a' a
  | atPreheader {a a' : Activation} (waits : AtPreheader X F F' header a' a) :
      Behind X F F' header a' a

omit h in
include wellFormed in
theorem nextBlock_not_target (terminated : F.Terminated) (place : a.At F done)
    (current : a.rest = inst :: rest) (found : F.insts inst = some data) :
    F.nextBlock ∉ data.kind.bbUsage := by
  intro isTarget
  have block := place.placed current
  have isTerminator : data.kind.isTerminator = true := by
    obtain ⟨ty, kind⟩ := data
    cases kind <;> first
      | rfl
      | cases isTarget
  obtain rfl := wellFormed.terminator_last block found isTerminator
  have isLast : F.terminator a.block = some inst := by simp [FunctionData.terminator, block]
  have isKind : F.kind inst = some data.kind := by simp [FunctionData.kind, found]
  obtain ⟨e, leaves, same⟩ : ∃ e ∈ F.outgoingEdges a.block, e.target = F.nextBlock := by
    rw [FunctionData.outgoingEdges, isLast]
    simp only [isKind]
    generalize data.kind = kind at isTarget
    cases kind with
    | jump target args =>
      obtain rfl := List.mem_singleton.mp isTarget
      exact ⟨_, List.mem_singleton_self _, rfl⟩
    | branch cond tTarget tArgs fTarget fArgs =>
      rcases List.mem_cons.mp isTarget with same | isFalse
      · exact ⟨_, List.mem_cons_self, same.symm⟩
      · obtain rfl := List.mem_singleton.mp isFalse
        exact ⟨_, List.mem_cons_of_mem _ (List.mem_singleton_self _), rfl⟩
    | _ => cases isTarget
  have placed := terminated.targets a.block (FunctionData.mem_blocks block) e leaves
  exact (wellFormed.block_lt placed).ne same

include room wellFormed ssa types globals in
/-- Every run with the preheader is one without it. -/
theorem Preheaded.sim (terminated : F.Terminated) (placed : header ≠ F.nextBlock) :
    OpenSim X F' F (notPreheader F) (Behind X F F' header) := by
  intro a' a m seen o behind step
  cases behind with
  | atPreheader waits =>
    obtain ⟨vals, inst, current, effect, jump⟩ := waits.jumps
    -- the jump is all there is in the preheader
    have only : ∀ {inst' rest' e}, a'.rest = inst' :: rest' → exec X F' a' m inst' = some e →
        e = .goto header vals := by
      intro inst' rest' e current' effect'
      obtain ⟨rfl, -⟩ := List.cons.inj (current'.symm.trans waits.rest)
      exact Option.some.inj (effect'.symm.trans (jump m))
    cases step with
    | goto current' effect' entered' =>
      cases only current' effect'
      obtain ⟨b, entered, place, block, rest⟩ := h.enter' wellFormed waits.place placed entered'
      have step : OpenStep X F a m [.visit header vals] (.running b m) :=
        .goto current (effect m) entered
      refine ⟨_, ?_, .running m (.alongside
        ⟨place, waits.running.openStep wellFormed ssa types step, block, rest⟩)⟩
      rw [shownBy_visit_old placed]
      exact .single step
    | value current' effect' => cases only current' effect'
    | write current' effect' => cases only current' effect'
    | call _ current' effect' => cases only current' effect'
    | tailCall current' effect' => cases only current' effect'
    | ret current' effect' => cases only current' effect'
  | alongside same =>
    obtain ⟨done, place⟩ := same.running.place
    have origin : ∀ {inst rest e'}, a'.rest = inst :: rest → exec X F' a' m inst = some e' →
        a.rest = inst :: rest ∧ ∃ e, exec X F a m inst = some e ∧
          e' = e.retarget (if moves inst then divert header F.nextBlock else id) := by
      intro inst rest e' current' effect'
      have current := same.rest.symm.trans current'
      exact ⟨current, h.exec_of_exec' room wellFormed ssa place.toAt current same.toSamePlace
        (fun found => nextBlock_not_target wellFormed terminated place.toAt current found)
          effect'⟩
    have going := fun {b m' seen} (step : OpenStep X F a m seen (.running b m')) =>
      same.running.openStep wellFormed ssa types step
    cases step with
    | @value inst rest v current' effect' =>
      obtain ⟨current, e, effect, isE⟩ := origin current' effect'
      cases e <;> cases isE
      have step : OpenStep X F a m [] _ := .value current effect
      exact ⟨_, .single step, .running m (.alongside (same.define current (going step)))⟩
    | @write inst rest m' current' effect' =>
      obtain ⟨current, e, effect, isE⟩ := origin current' effect'
      cases e <;> cases isE
      have step : OpenStep X F a m [.write m'] _ := .write current effect
      refine ⟨_, .single step, .running m' (.alongside
        ⟨⟨same.func, same.frame, same.env⟩, going step, same.block, ?_⟩)⟩
      simp [Activation.next, same.rest]
    | @goto inst rest target vals b' current' effect' entered' =>
      obtain ⟨current, e, effect, isE⟩ := origin current' effect'
      cases e with
      | goto target₀ vals₀ =>
        simp only [Effect.retarget, Effect.goto.injEq] at isE
        obtain ⟨isTarget, rfl⟩ := isE
        rcases diverted_cases F header moves inst target₀ with kept | ⟨rfl, moved⟩
        · rw [kept] at isTarget
          subst isTarget
          have block := place.toAt.placed current
          obtain ⟨-, edge, leaves, rfl, -, -⟩ := wellFormed.edge_of_goto block effect
          have inLayout := terminated.targets _ (FunctionData.mem_blocks block) edge leaves
          have notNew := (wellFormed.block_lt inLayout).ne
          obtain ⟨b, entered, placeB, blockB, restB⟩ :=
            h.enter' wellFormed same.toSamePlace notNew entered'
          have step : OpenStep X F a m [.visit edge.target vals] (.running b m) :=
            .goto current effect entered
          refine ⟨_, ?_, .running m (.alongside ⟨placeB, going step, blockB, restB⟩)⟩
          rw [shownBy_visit_old notNew]
          exact .single step
        · rw [moved] at isTarget
          subst isTarget
          obtain ⟨ends, fit, length⟩ :=
            fitHeader_of_goto wellFormed types globals same.running current effect
          subst ends
          obtain ⟨p, enteredP, placeP, -, restP, jump⟩ :=
            h.enter_preheader room same.toSamePlace length
          cases enteredP.symm.trans entered'
          refine ⟨_, ?_, .running m (.atPreheader ⟨placeP, same.running, restP,
            vals, inst, current, fun m' => exec_goto_mem effect, jump fit⟩)⟩
          rw [shownBy_visit_new]
          exact .refl a m
      | value | write | call | tailCall | ret => cases isE
    | @call inst rest callee vals value b' m' current' effect' resumed' =>
      obtain ⟨current, e, effect, isE⟩ := origin current' effect'
      cases e <;> cases isE
      obtain ⟨data, found⟩ := exec_isSome effect
      have step : OpenStep X F a m [.call callee vals value m'] _ := .call m' current effect
        (Activation.resume_eq_some.mpr ⟨inst, rest, data, current, found, rfl⟩)
      cases resumed'.symm.trans (h.resume wellFormed same current found value)
      exact ⟨_, .single step, .running m' (.alongside (same.define current (going step)))⟩
    | @tailCall inst rest callee vals current' effect' =>
      obtain ⟨current, e, effect, isE⟩ := origin current' effect'
      cases e <;> cases isE
      exact ⟨_, .single (.tailCall current effect), .done⟩
    | @ret inst rest value current' effect' =>
      obtain ⟨current, e, effect, isE⟩ := origin current' effect'
      cases e <;> cases isE
      exact ⟨_, .single (.ret current effect), .done⟩

include wellFormed in
theorem Preheaded.start (started : Activation.start F func frame args = some a) :
    ∃ a', Activation.start F' func frame args = some a' ∧ Alongside X F header a a' := by
  have running : Running X F a := .start wellFormed started
  obtain ⟨entry, insts, isEntry, length, block, rfl⟩ := Activation.start_eq_some.mp started
  have notNew := (wellFormed.block_lt (FunctionData.mem_blocks block)).ne
  refine ⟨_, Activation.start_eq_some.mpr ⟨entry, insts, by rw [h.entry, isEntry],
    by rwa [h.oldParams notNew], by rwa [h.oldBlock notNew], rfl⟩, ?_, running, rfl, rfl⟩
  have nothing : SamePlace F header ⟨func, frame, fun _ => none, entry, insts⟩
      ⟨func, frame, fun _ => none, entry, insts⟩ := ⟨rfl, rfl, fun _ _ => rfl⟩
  rw [h.oldParams notNew]
  exact h.samePlace_bind wellFormed nothing

include wellFormed in
theorem Preheaded.start' (started : Activation.start F' func frame args = some a') :
    ∃ a, Activation.start F func frame args = some a ∧ Alongside X F header a a' := by
  obtain ⟨entry, insts, isEntry, length, block, -⟩ := Activation.start_eq_some.mp started
  rw [h.entry] at isEntry
  have notNew := (wellFormed.block_lt (FunctionData.entry_mem_blocks isEntry)).ne
  rw [h.oldParams notNew] at length
  rw [h.oldBlock notNew] at block
  have original : Activation.start F func frame args = some
      ⟨func, frame, bindParams F (fun _ => none) (F.blockParams entry) args, entry, insts⟩ :=
    Activation.start_eq_some.mpr ⟨entry, insts, isEntry, length, block, rfl⟩
  obtain ⟨a'', started'', same⟩ := h.start (X := X) wellFormed original
  cases started''.symm.trans started
  exact ⟨_, original, same⟩

include room wellFormed ssa types globals

/-- The function with the preheader has the runs of the one without it, and no others. -/
theorem Preheaded.refinedBy : RefinedBy X F F' (notPreheader F) :=
  OpenCover.refinedBy (h.cover room wellFormed ssa types globals) (h.start wellFormed)

theorem Preheaded.refines (terminated : F.Terminated) (placed : header ≠ F.nextBlock) :
    Refines X F' F (notPreheader F) := by
  refine OpenSim.refines (h.sim room wellFormed ssa types globals terminated placed) fun started =>
    ?_
  obtain ⟨a, started', same⟩ := h.start' wellFormed started
  exact ⟨a, started', .alongside same⟩

end Simulation

end Preheaded

end AnonCompiler.Opt
