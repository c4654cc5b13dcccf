import AnonCompiler.Ir.LocalSim
import AnonCompiler.Opt.RotateLoops

/-!
# Rotating a countdown loop

The rotated function skips the last visit of the header: where the original
jumps to the header with a zero and leaves the loop from there, the rotated one
leaves the loop from the latch.  During that visit the rotated activation waits
at the latch; afterwards the two differ in the values of the header, its
parameters and the instructions in it, until the header is entered again.

The pass refuses loops whose exit block reads a header parameter, but makes an
exception for the tested one, and looks neither at the blocks behind the exit nor
at the instructions of the header.  What it misses is what `CountdownOk` asks of
a state.
-/

set_option autoImplicit false

namespace AnonCompiler.Opt.RotateLoops

open Ir

/-- The parameters of a block and the instructions in it. -/
def valuesOf (F : FunctionData) (bb : BasicBlock) : List Inst :=
  F.blockParams bb ++ (F.blockInsts bb).getD []

/-- The tested parameter does not keep the activation in the loop. -/
def leaves (c : Countdown) (a : Activation) : Bool :=
  match a.env c.cond with
  | some (.int k) => k = 0
  | _ => true

/-- The rotated loop does here what the original does: a visit of the header that
leaves the loop has no effect, and after that no value of the header is read. -/
structure CountdownOk (F : FunctionData) (header : BasicBlock) (c : Countdown) (a : Activation) :
    Prop where
  leaving : a.block = header → leaves c a = true →
    ∀ kind ∈ a.rest.head?.bind F.kind, kind.hasEffect = false
  left : a.block ≠ header → a.env c.cond = some (.int 0) →
    ∀ kind ∈ a.rest.head?.bind F.kind, ∀ x ∈ kind.instUsage, x ∉ valuesOf F header

instance (F : FunctionData) (header : BasicBlock) (c : Countdown) (a : Activation) :
    Decidable (CountdownOk F header c a) :=
  decidable_of_iff
    ((a.block = header → leaves c a = true →
        ∀ kind ∈ a.rest.head?.bind F.kind, kind.hasEffect = false) ∧
      (a.block ≠ header → a.env c.cond = some (.int 0) →
        ∀ kind ∈ a.rest.head?.bind F.kind, ∀ x ∈ kind.instUsage, x ∉ valuesOf F header))
    ⟨fun h => ⟨h.1, h.2⟩, fun h => ⟨h.leaving, h.left⟩⟩

/-- All instructions but the two terminators and the effect-free instructions of
the header. -/
def watched (f : Function) (F : FunctionData) (header : BasicBlock) (c : Countdown) (g : Function)
    (inst : Inst) : Bool :=
  g ≠ f || !(inst = c.backEdge ||
    (inst ∈ (F.blockInsts header).getD [] && (F.kind inst).all (!·.hasEffect)))

/-- A recognized loop of a well-formed function. -/
structure Rotated (P : Program) (F : FunctionData) (header : BasicBlock)
    (c : Countdown) : Prop where
  wellFormed : F.WellFormed
  typed : F.WellTyped P
  valid : c.Valid P F header
  notEntry : F.entryBlock ≠ some header

section Static

variable {P : Program} {F : FunctionData} {header : BasicBlock} {c : Countdown}

theorem Rotated.terminator_ne (h : Rotated P F header c) : c.terminator ≠ c.backEdge := by
  intro same
  have branch := h.valid.branch
  rw [same, h.valid.backEdge] at branch
  cases branch

theorem insts_apply (inst : Inst) : (applyCountdown F header c).insts inst =
    if inst = c.terminator then some ⟨.unit, .jump c.body []⟩
    else if inst = c.backEdge then some ⟨.unit, .branch c.tested header c.backArgs c.exit []⟩
    else F.insts inst := by
  simp only [applyCountdown, FunctionData.replaceInst, Function.update_apply]

theorem insts_apply_of_ne {inst : Inst} (notTerminator : inst ≠ c.terminator)
    (notBack : inst ≠ c.backEdge) : (applyCountdown F header c).insts inst = F.insts inst := by
  rw [insts_apply, if_neg notTerminator, if_neg notBack]

theorem kind_eq_some {inst : Inst} {kind : InstKind} (h : F.kind inst = some kind) :
    ∃ ty, F.insts inst = some ⟨ty, kind⟩ := by
  obtain ⟨data, found, rfl⟩ := Option.map_eq_some_iff.mp h
  exact ⟨data.ty, found⟩

section

variable (h : Rotated P F header c)
include h

theorem Rotated.insts_terminator :
    F.insts c.terminator = some ⟨.unit, .branch c.cond c.body [] c.exit []⟩ := by
  obtain ⟨ty, found⟩ := kind_eq_some h.valid.branch
  have : ty = .unit := h.typed.terminator found rfl
  rw [found, this]

theorem Rotated.insts_backEdge : F.insts c.backEdge = some ⟨.unit, .jump header c.backArgs⟩ := by
  obtain ⟨ty, found⟩ := kind_eq_some h.valid.backEdge
  have : ty = .unit := h.typed.terminator found rfl
  rw [found, this]

/-- The header ends in its terminator. -/
theorem Rotated.header_insts : ∃ done, F.blockInsts header = some (done ++ [c.terminator]) := by
  obtain ⟨insts, block, last⟩ := Option.bind_eq_some_iff.mp h.valid.isTerminator
  obtain ⟨done, rfl⟩ := List.getLast?_eq_some_iff.mp last
  exact ⟨done, block⟩

/-- The terminator stands in the header only. -/
theorem Rotated.block_of_terminator {bb : BasicBlock} {insts : List Inst}
    (block : F.blockInsts bb = some insts) (member : c.terminator ∈ insts) : bb = header := by
  obtain ⟨done, isHeader⟩ := h.header_insts
  exact h.wellFormed.block_unique block isHeader member (by simp)

/-- The body and the exit are other blocks than the header. -/
theorem Rotated.targets_ne : c.body ≠ header ∧ c.exit ≠ header := by
  have below : c.terminator < F.nextInst := h.wellFormed.inst_lt (by simp [h.insts_terminator])
  have notUser : header ≠ c.body ∧ header ≠ c.exit := by
    by_contra uses
    have member : c.terminator ∈ F.bbUsedBy header := by
      refine mem_bbUsedBy.mpr ⟨below, _, h.valid.branch, ?_⟩
      simp only [InstKind.bbUsage, List.mem_cons, List.not_mem_nil, or_false]
      by_contra neither
      exact uses (not_or.mp neither)
    obtain ⟨args, isJump⟩ := h.valid.jumps member
    cases h.valid.branch.symm.trans isJump
  exact ⟨notUser.1.symm, notUser.2.symm⟩

theorem Rotated.cond_data :
    ∃ data index, F.insts c.cond = some data ∧ data.kind = .blockArgRef index :=
  h.wellFormed.blockParam h.valid.isParam

theorem Rotated.cond_ne {inst : Inst} (laidOut : inst ∈ F.layoutInsts) : inst ≠ c.cond := by
  rintro rfl
  exact h.wellFormed.not_param laidOut header h.valid.isParam

/-- Parameters are left alone by the rewriting. -/
theorem Rotated.param_insts {bb : BasicBlock} {param : Inst} (isParam : param ∈ F.blockParams bb) :
    (applyCountdown F header c).insts param = F.insts param := by
  obtain ⟨data, index, found, isRef⟩ := h.wellFormed.blockParam isParam
  refine insts_apply_of_ne ?_ ?_ <;> rintro rfl
  · cases h.insts_terminator.symm.trans found
    cases isRef
  · cases h.insts_backEdge.symm.trans found
    cases isRef

theorem bindParams_apply {bb : BasicBlock} {env : Env} {vals : List Val} :
    bindParams (applyCountdown F header c) env (F.blockParams bb) vals =
      bindParams F env (F.blockParams bb) vals := by
  have general : ∀ params : List Inst, (∀ param ∈ params,
      (applyCountdown F header c).insts param = F.insts param) → ∀ vals,
      bindParams (applyCountdown F header c) env params vals = bindParams F env params vals := by
    intro params
    induction params with
    | nil => intros; rfl
    | cons first rest ih =>
      intro same vals
      cases vals with
      | nil => rfl
      | cons v vals =>
        rw [bindParams, bindParams, same first (List.mem_cons_self ..),
          ih (fun param member => same param (List.mem_cons_of_mem _ member))]
  exact general _ (fun param member => h.param_insts member) vals

theorem allocSize_apply (inst : Inst) :
    Mem.allocSize (applyCountdown F header c) inst = Mem.allocSize F inst := by
  unfold Mem.allocSize
  by_cases isTerminator : inst = c.terminator
  · rw [insts_apply, if_pos isTerminator, isTerminator, h.insts_terminator]
  · by_cases isBack : inst = c.backEdge
    · rw [insts_apply, if_neg isTerminator, if_pos isBack, isBack, h.insts_backEdge]
    · rw [insts_apply_of_ne isTerminator isBack]

/-- The rewritten terminators are no constants, before and after. -/
theorem sameConsts_apply : SameConsts F (applyCountdown F header c) := by
  intro inst
  by_cases isTerminator : inst = c.terminator
  · rw [insts_apply, if_pos isTerminator, isTerminator, h.insts_terminator]
    right
    constructor <;> rintro data ⟨⟩ <;> rfl
  · by_cases isBack : inst = c.backEdge
    · rw [insts_apply, if_neg isTerminator, if_pos isBack, isBack, h.insts_backEdge]
      right
      constructor <;> rintro data ⟨⟩ <;> rfl
    · exact .inl (insts_apply_of_ne isTerminator isBack)

theorem instTy_apply (X : Ctx) (inst : Inst) :
    (X.instData (applyCountdown F header c) inst).map InstData.ty =
      (X.instData F inst).map InstData.ty := by
  unfold Ctx.instData
  by_cases isGlobal : inst.isGlobal = true
  · rw [if_pos isGlobal, if_pos isGlobal]
  · rw [if_neg isGlobal, if_neg isGlobal]
    by_cases isTerminator : inst = c.terminator
    · rw [insts_apply, if_pos isTerminator, isTerminator, h.insts_terminator]
      rfl
    · by_cases isBack : inst = c.backEdge
      · rw [insts_apply, if_neg isTerminator, if_pos isBack, isBack, h.insts_backEdge]
        rfl
      · rw [insts_apply_of_ne isTerminator isBack]

theorem sameOperand_apply {X : Ctx} {env env' : Env} {x : Inst} (same : env' x = env x) :
    X.SameOperand F (applyCountdown F header c) env env' x :=
  (sameConsts_apply h).sameOperand (instTy_apply h X x) same

/-- The tested parameter is read from the environment. -/
theorem Rotated.operand_cond (X : Ctx) (env : Env) : X.operand F env c.cond = env c.cond := by
  obtain ⟨data, index, found, isRef⟩ := h.cond_data
  have isLocal := h.wellFormed.isLocal (by simp [found] : F.insts c.cond ≠ none)
  simp [Ctx.operand, Ctx.instData, isLocal, found, isRef, Ctx.isConst]

end

end Static

/-! ## The two activations -/

/-- Stores and terminators define no value. -/
def Silent (F : FunctionData) (inst : Inst) : Prop :=
  ∃ kind, F.kind inst = some kind ∧ match kind with
    | .store .. | .memZero .. => True
    | kind => kind.isTerminator = true

/-- The values the rotated activation may not have. -/
def Stale (F : FunctionData) (header : BasicBlock) (c : Countdown) (a : Activation)
    (x : Inst) : Prop :=
  ¬ Silent F x ∧ if a.block = header then x ∈ a.rest
    else a.env c.cond = some (.int 0) ∧ x ∈ valuesOf F header

/-- Both activations stand at the same instruction. -/
structure Alike (F : FunctionData) (header : BasicBlock) (c : Countdown)
    (a a' : Activation) : Prop where
  block : a'.block = a.block
  rest : a'.rest = a.rest
  agree : ∀ {x}, ¬ Stale F header c a x → a'.env x = a.env x
  goesOn : a.block = header → a.env c.cond ≠ some (.int 0)

/-- The original visits the header to leave the loop, the rotated one waits at the
latch. -/
structure Leaving (X : Ctx) (F : FunctionData) (header : BasicBlock) (c : Countdown)
    (a a' : Activation) : Prop where
  block : a.block = header
  waits : a'.rest = [c.backEdge]
  agree : ∀ {x}, Silent F x ∨ x ∉ valuesOf F header → a'.env x = a.env x
  stops : ∀ {k}, a.env c.cond = some (.int k) →
    k = 0 ∧ X.operand (applyCountdown F header c) a'.env c.tested = some (.int 0)

structure Mirrors (f : Function) (X : Ctx) (F : FunctionData) (header : BasicBlock) (c : Countdown)
    (a a' : Activation) : Prop where
  func : a.func = f
  func' : a'.func = f
  frame : a'.frame = a.frame
  suffix : ∃ done, F.blockInsts a.block = some (done ++ a.rest)
  place : Alike F header c a a' ∨ Leaving X F header c a a'

section Simulation

variable {f : Function} {P : Program} {X : Ctx} {F : FunctionData} {header : BasicBlock}
  {c : Countdown} {a a' : Activation}

theorem mem_valuesOf {x : Inst} : x ∈ valuesOf F header ↔ x ∈ F.blockParams header ∨
    ∃ insts, F.blockInsts header = some insts ∧ x ∈ insts := by
  unfold valuesOf
  rw [List.mem_append]
  cases F.blockInsts header <;> simp

/-- Going on with the next instruction. -/
theorem suffix_next {inst : Inst} {rest : List Inst} {b : Activation}
    (suffix : ∃ done, F.blockInsts a.block = some (done ++ a.rest))
    (current : a.rest = inst :: rest) (block : b.block = a.block) (moved : b.rest = a.rest.tail) :
    ∃ done, F.blockInsts b.block = some (done ++ b.rest) := by
  obtain ⟨done, isBlock⟩ := suffix
  exact ⟨done ++ [inst], by rw [block, moved, isBlock, current]; simp⟩

theorem Alike.define (h : Rotated P F header c) (alike : Alike F header c a a') {inst : Inst}
    {rest : List Inst} (current : a.rest = inst :: rest)
    (suffix : ∃ done, F.blockInsts a.block = some (done ++ a.rest)) (v : Val) :
    Alike F header c (a.define inst v) (a'.define inst v) := by
  obtain ⟨done, block⟩ := suffix
  have laidOut : inst ∈ F.layoutInsts := FunctionData.mem_layoutInsts block (by simp [current])
  have cond : (a.define inst v).env c.cond = a.env c.cond :=
    Activation.define_env_of_ne (h.cond_ne laidOut).symm v
  refine ⟨alike.block, by simp [Activation.define, alike.rest], ?_, ?_⟩
  · intro x fresh
    by_cases isInst : x = inst
    · subst isInst
      simp [Activation.define]
    · simp only [Activation.define, Function.update_of_ne isInst]
      refine alike.agree fun stale => fresh ⟨stale.1, ?_⟩
      have stale := stale.2
      rw [cond]
      by_cases inHeader : a.block = header
      · simpa [Activation.define, inHeader, current, isInst] using stale
      · simpa [Activation.define, inHeader] using stale
  · intro inHeader
    rw [cond]
    exact alike.goesOn inHeader

theorem Alike.next (alike : Alike F header c a a') {inst : Inst} {rest : List Inst}
    (current : a.rest = inst :: rest) (silent : Silent F inst) :
    Alike F header c a.next a'.next := by
  refine ⟨alike.block, by simp [Activation.next, alike.rest], ?_, alike.goesOn⟩
  intro x fresh
  refine alike.agree fun stale => fresh ⟨stale.1, ?_⟩
  have differ : x ≠ inst := by
    rintro rfl
    exact stale.1 silent
  have stale := stale.2
  by_cases inHeader : a.block = header
  · simpa [Activation.next, inHeader, current, differ] using stale
  · simpa [Activation.next, inHeader] using stale

section

variable (h : Rotated P F header c)
include h

theorem Rotated.silent_terminator : Silent F c.terminator :=
  ⟨_, h.valid.branch, rfl⟩

/-- When the block ends, the activations agree off the values of a loop that has
been left. -/
theorem Alike.atEnd (alike : Alike F header c a a')
    (last : a.block = header → a.rest = [c.terminator]) {x : Inst}
    (fresh : a.env c.cond = some (.int 0) → Silent F x ∨ x ∉ valuesOf F header) :
    a'.env x = a.env x := by
  refine alike.agree fun stale => ?_
  obtain ⟨notSilent, stale⟩ := stale
  by_cases inHeader : a.block = header
  · rw [if_pos inHeader, last inHeader, List.mem_singleton] at stale
    subst stale
    exact notSilent h.silent_terminator
  · rw [if_neg inHeader] at stale
    rcases fresh stale.1 with silent | notValue
    · exact notSilent silent
    · exact notValue stale.2

theorem enterBlock_apply {target : BasicBlock} {vals : List Val} {b : Activation}
    (entered : a.enterBlock F target vals = some b) :
    ∃ insts, F.blockInsts target = some insts ∧ vals.length = (F.blockParams target).length ∧
      b = { a with env := bindParams F a.env (F.blockParams target) vals
                   block := target, rest := insts } ∧
      a'.enterBlock (applyCountdown F header c) target vals =
        some { a' with env := bindParams F a'.env (F.blockParams target) vals
                       block := target, rest := insts } := by
  obtain ⟨length, insts, block, rfl⟩ := Activation.enterBlock_eq_some.mp entered
  refine ⟨insts, block, length, rfl, Activation.enterBlock_eq_some.mpr ⟨length, insts, block, ?_⟩⟩
  rw [← bindParams_apply h]
  rfl

/-- Both enter another block than the header. -/
theorem Mirrors.enter (mirrors : Mirrors f X F header c a a')
    (agree : ∀ {x}, (a.env c.cond = some (.int 0) → Silent F x ∨ x ∉ valuesOf F header) →
      a'.env x = a.env x)
    {target : BasicBlock} {vals : List Val} {b : Activation} (other : target ≠ header)
    (entered : a.enterBlock F target vals = some b) :
    ∃ b', a'.enterBlock (applyCountdown F header c) target vals = some b' ∧
      Mirrors f X F header c b b' := by
  obtain ⟨insts, block, length, rfl, entered'⟩ := enterBlock_apply h entered
  refine ⟨_, entered', mirrors.func, mirrors.func', mirrors.frame,
    ⟨[], by simpa using block⟩, .inl ?_⟩
  have cond : bindParams F a.env (F.blockParams target) vals c.cond = a.env c.cond := by
    refine bindParams_of_notMem fun isParam => other ?_
    exact h.wellFormed.blockParams_unique isParam h.valid.isParam
  refine ⟨rfl, rfl, ?_, fun isHeader => absurd isHeader other⟩
  intro x fresh
  refine bindParams_congr length fun notParam => agree fun isZero => ?_
  by_contra both
  rw [not_or, not_not] at both
  refine fresh ⟨both.1, ?_⟩
  rw [if_neg other]
  exact ⟨cond.trans isZero, both.2⟩

/-- Both enter the header, to stay in the loop. -/
theorem Mirrors.enterHeader (mirrors : Mirrors f X F header c a a')
    (agree : ∀ {x}, Silent F x ∨ x ∉ valuesOf F header → a'.env x = a.env x) {vals : List Val}
    {b : Activation} (entered : a.enterBlock F header vals = some b)
    (goesOn : b.env c.cond ≠ some (.int 0)) :
    ∃ b', a'.enterBlock (applyCountdown F header c) header vals = some b' ∧
      Mirrors f X F header c b b' := by
  obtain ⟨insts, block, length, rfl, entered'⟩ := enterBlock_apply h entered
  refine ⟨_, entered', mirrors.func, mirrors.func', mirrors.frame,
    ⟨[], by simpa using block⟩, .inl ?_⟩
  refine ⟨rfl, rfl, ?_, fun _ => goesOn⟩
  intro x fresh
  refine bindParams_congr length fun notParam => agree ?_
  by_contra both
  rw [not_or, not_not] at both
  refine fresh ⟨both.1, ?_⟩
  rw [if_pos rfl]
  rcases mem_valuesOf.mp both.2 with isParam | ⟨insts', block', member⟩
  · exact absurd isParam notParam
  · cases block.symm.trans block'
    exact member

/-- The last instruction of the header is its terminator. -/
theorem Rotated.last_of_header {done rest : List Inst} {inst : Inst}
    (block : F.blockInsts header = some (done ++ inst :: rest)) (other : inst ≠ c.terminator) :
    rest ≠ [] := by
  rintro rfl
  obtain ⟨done', block'⟩ := h.header_insts
  have same := Option.some.inj (block.symm.trans block')
  exact other (List.cons.inj (List.append_inj' same rfl).2).1

end

theorem not_silent {inst : Inst} {kind : InstKind} (isKind : F.kind inst = some kind)
    (noEffect : kind.hasEffect = false) (notTerminator : kind.isTerminator = false) :
    ¬ Silent F inst := by
  rintro ⟨kind', isKind', silent⟩
  obtain rfl := Option.some.inj (isKind.symm.trans isKind')
  cases kind <;> simp_all [InstKind.hasEffect, InstKind.isTerminator]

theorem observe_unwatched {F : FunctionData} {inst : Inst} {e : Effect} (func : a.func = f)
    (unwatched : watched f F header c f inst = false) :
    observe (watched f F header c) a inst e = [] := by
  simp [observe, func, unwatched]

theorem unwatched_backEdge : watched f F header c f c.backEdge = false := by
  simp [watched]

theorem unwatched_header {insts : List Inst} {inst : Inst} {kind : InstKind}
    (block : F.blockInsts header = some insts) (member : inst ∈ insts)
    (isKind : F.kind inst = some kind) (noEffect : kind.hasEffect = false) :
    watched f F header c f inst = false := by
  simp [watched, block, member, isKind, noEffect]

section

variable (h : Rotated P F header c)
include h

/-- The visit of the header that leaves the loop. -/
theorem Mirrors.answers_leaving (mirrors : Mirrors f X F header c a a')
    (leaving : Leaving X F header c a a') (ok : CountdownOk F header c a) {m : Mem} {inst : Inst}
    {rest : List Inst} {e : Effect} (current : a.rest = inst :: rest)
    (effect : exec X F a m inst = some e) :
    Answers (watched f F header c) X F (applyCountdown F header c) (Mirrors f X F header c) a a' m
      inst e := by
  obtain ⟨data, found⟩ := exec_isSome effect
  have kind : F.kind inst = some data.kind := by simp [FunctionData.kind, found]
  obtain ⟨done, block⟩ := mirrors.suffix
  rw [current, leaving.block] at block
  have laidOut : inst ∈ F.layoutInsts := FunctionData.mem_layoutInsts block (by simp)
  by_cases isTerminator : inst = c.terminator
  · subst isTerminator
    cases h.insts_terminator.symm.trans found
    obtain ⟨k, vals, decided, operands, rfl⟩ := (exec_branch found).mp effect
    rw [h.operand_cond] at decided
    obtain ⟨rfl, tested⟩ := leaving.stops decided
    simp only [ne_eq, not_true_eq_false, if_false] at operands ⊢
    obtain rfl : [] = vals := by simpa [Ctx.operands] using operands
    intro b entered
    obtain ⟨b', entered', mirrors'⟩ := mirrors.enter h
      (fun fresh => leaving.agree (fresh decided)) h.targets_ne.2 entered
    refine ⟨b', ?_, mirrors'⟩
    have test : exec X (applyCountdown F header c) a' m c.backEdge = some (.goto c.exit []) := by
      simp [exec, insts_apply, h.terminator_ne.symm, tested, Ctx.operands]
    have quiet : Quiet (watched f F header c) X (applyCountdown F header c) m a' _ b' :=
      .single_goto leaving.waits test entered'
    rw [observe_unwatched mirrors.func' unwatched_backEdge] at quiet
    rw [observe_unwatched mirrors.func (unwatched_header block (by simp) kind rfl)]
    exact quiet
  · have more := h.last_of_header block isTerminator
    have notTerminator : data.kind.isTerminator = false := by
      by_contra terminates
      exact more (h.wellFormed.terminator_last block found (by simpa using terminates))
    have noEffect : data.kind.hasEffect = false := by
      refine ok.leaving leaving.block ?_ data.kind (by simp [current, kind])
      unfold leaves
      split
      · next k isInt => exact decide_eq_true (leaving.stops isInt).1
      · rfl
    have isValue : ∃ v, e = .value v := by
      cases executes_of_exec found effect <;> first
        | exact ⟨_, rfl⟩
        | simp_all [InstKind.isTerminator, InstKind.hasEffect]
    obtain ⟨v, rfl⟩ := isValue
    refine ⟨a', ?_, ?_⟩
    · rw [observe_unwatched mirrors.func (unwatched_header block (by simp) kind noEffect)]
      exact .refl a'
    · refine ⟨mirrors.func, mirrors.func', mirrors.frame,
        suffix_next mirrors.suffix current rfl rfl, .inr ⟨leaving.block, leaving.waits, ?_, ?_⟩⟩
      · intro x fresh
        have differ : x ≠ inst := by
          rintro rfl
          rcases fresh with silent | notValue
          · exact not_silent kind noEffect notTerminator silent
          · exact notValue (mem_valuesOf.mpr (.inr ⟨_, block, by simp⟩))
        rw [Activation.define_env_of_ne differ]
        exact leaving.agree fresh
      · intro k isInt
        rw [Activation.define_env_of_ne (h.cond_ne laidOut).symm] at isInt
        exact leaving.stops isInt

/-- The operands of the next instruction have not gone stale. -/
theorem Mirrors.fresh (mirrors : Mirrors f X F header c a a') (ok : CountdownOk F header c a)
    {inst : Inst} {rest : List Inst} {data : InstData} (current : a.rest = inst :: rest)
    (found : F.insts inst = some data) {x : Inst} (used : x ∈ data.kind.instUsage) :
    ¬ Stale F header c a x := by
  rintro ⟨-, stale⟩
  obtain ⟨done, block⟩ := mirrors.suffix
  by_cases inHeader : a.block = header
  · rw [if_pos inHeader] at stale
    rw [current] at block stale
    exact h.wellFormed.ordered block found used stale
  · rw [if_neg inHeader] at stale
    have kind : data.kind ∈ a.rest.head?.bind F.kind := by simp [current, FunctionData.kind, found]
    exact ok.left inHeader stale.1 data.kind kind x used stale.2

/-- The header's terminator, when the loop goes on. -/
theorem Mirrors.answers_terminator (mirrors : Mirrors f X F header c a a')
    (alike : Alike F header c a a') {m : Mem} {rest : List Inst} {e : Effect}
    (current : a.rest = c.terminator :: rest) (effect : exec X F a m c.terminator = some e) :
    Answers (watched f F header c) X F (applyCountdown F header c) (Mirrors f X F header c) a a' m
      c.terminator e := by
  obtain ⟨done, block⟩ := mirrors.suffix
  rw [current] at block
  have inHeader : a.block = header := h.block_of_terminator block (by simp)
  obtain rfl : rest = [] := h.wellFormed.terminator_last block h.insts_terminator rfl
  rw [inHeader] at block
  obtain ⟨k, vals, decided, operands, rfl⟩ := (exec_branch h.insts_terminator).mp effect
  have nonzero : k ≠ 0 := by
    rintro rfl
    rw [h.operand_cond] at decided
    exact alike.goesOn inHeader decided
  rw [if_pos nonzero] at operands ⊢
  obtain rfl : [] = vals := by simpa [Ctx.operands] using operands
  intro b entered
  obtain ⟨b', entered', mirrors'⟩ := mirrors.enter h
    (fun fresh => alike.atEnd h (fun _ => current) fresh) h.targets_ne.1 entered
  refine ⟨b', ?_, mirrors'⟩
  have jump : exec X (applyCountdown F header c) a' m c.terminator = some (.goto c.body []) := by
    simp [exec, insts_apply, Ctx.operands]
  have unwatched := unwatched_header (f := f) (c := c) block (by simp) h.valid.branch rfl
  have quiet : Quiet (watched f F header c) X (applyCountdown F header c) m a' _ b' :=
    .single_goto (alike.rest.trans current) jump entered'
  rw [observe_unwatched mirrors.func' unwatched] at quiet
  rw [observe_unwatched mirrors.func unwatched]
  exact quiet

/-- The tested parameter holds the argument of the edge. -/
theorem Rotated.bound_cond {env : Env} {vals : List Val} {w v : Val}
    (length : vals.length = (F.blockParams header).length)
    (passed : vals[(F.blockParams header).idxOf c.cond]? = some w)
    (bound : bindParams F env (F.blockParams header) vals c.cond = some v) :
    ∃ ty, v = w.fit ty := by
  have position : (F.blockParams header)[(F.blockParams header).idxOf c.cond]? = some c.cond :=
    List.getElem?_idxOf h.valid.isParam
  obtain ⟨arg, ty, isArg, rfl⟩ :=
    bindParams_getElem (h.wellFormed.blockParams_nodup header) length position bound
  obtain rfl := Option.some.inj (isArg.symm.trans passed)
  exact ⟨ty, rfl⟩

theorem Rotated.param_notSilent {param : Inst} (isParam : param ∈ F.blockParams header) :
    ¬ Silent F param := by
  obtain ⟨data, index, found, isRef⟩ := h.wellFormed.blockParam isParam
  have kind : F.kind param = some (.blockArgRef index) := by simp [FunctionData.kind, found, isRef]
  exact not_silent kind rfl rfl

/-- The back edge: the rotated activation enters the header only to stay in the
loop. -/
theorem Mirrors.answers_backEdge (mirrors : Mirrors f X F header c a a')
    (alike : Alike F header c a a') (ok : CountdownOk F header c a) {m : Mem} {rest : List Inst}
    {e : Effect} (current : a.rest = c.backEdge :: rest)
    (effect : exec X F a m c.backEdge = some e) :
    Answers (watched f F header c) X F (applyCountdown F header c) (Mirrors f X F header c) a a' m
      c.backEdge e := by
  obtain ⟨done, block⟩ := mirrors.suffix
  rw [current] at block
  obtain rfl : rest = [] := h.wellFormed.terminator_last block h.insts_backEdge rfl
  have outside : a.block ≠ header := by
    intro inHeader
    exact h.last_of_header (inHeader ▸ block) h.terminator_ne.symm rfl
  have agree : ∀ {x}, Silent F x ∨ x ∉ valuesOf F header → a'.env x = a.env x := fun fresh =>
    alike.atEnd h (fun inHeader => absurd inHeader outside) fun _ => fresh
  obtain ⟨vals, operands, rfl⟩ := (exec_jump h.insts_backEdge).mp effect
  have operand : ∀ x ∈ c.backArgs, X.operand (applyCountdown F header c) a'.env x =
      X.operand F a.env x := fun x used =>
    (sameOperand_apply h (alike.agree (mirrors.fresh h ok current h.insts_backEdge used))).value
  have operands' : X.operands (applyCountdown F header c) a'.env c.backArgs = some vals :=
    (Ctx.operands_congr operand).trans operands
  have isTested : c.tested ∈ c.backArgs := List.mem_of_getElem? h.valid.tested
  obtain ⟨w, isW, passed⟩ : ∃ w, X.operand F a.env c.tested = some w ∧
      vals[(F.blockParams header).idxOf c.cond]? = some w := by
    have atPosition := Ctx.operands_getElem operands ((F.blockParams header).idxOf c.cond)
    rw [h.valid.tested, Option.bind_some] at atPosition
    have inside := (List.getElem?_eq_some_iff.mp h.valid.tested).1
    rw [← Ctx.operands_length operands] at inside
    exact ⟨_, atPosition.symm.trans (List.getElem?_eq_getElem inside),
      List.getElem?_eq_getElem inside⟩
  intro b entered
  obtain ⟨length, insts, isHeader, isB⟩ := Activation.enterBlock_eq_some.mp entered
  have decides : ∀ {k}, b.env c.cond = some (.int k) → w = .int k := by
    intro k isInt
    rw [isB] at isInt
    obtain ⟨ty, fits⟩ := h.bound_cond length passed isInt
    exact Val.fit_eq_int fits.symm
  rw [observe_unwatched mirrors.func unwatched_backEdge]
  by_cases goesOn : ∃ k, k ≠ 0 ∧ w = .int k
  · obtain ⟨k, nonzero, rfl⟩ := goesOn
    have stays : b.env c.cond ≠ some (.int 0) := fun isZero =>
      nonzero (Val.int.inj (decides isZero))
    obtain ⟨b', entered', mirrors'⟩ := mirrors.enterHeader h agree entered stays
    refine ⟨b', ?_, mirrors'⟩
    have found' : (applyCountdown F header c).insts c.backEdge =
        some ⟨.unit, .branch c.tested header c.backArgs c.exit []⟩ := by
      rw [insts_apply, if_neg h.terminator_ne.symm, if_pos rfl]
    have test : exec X (applyCountdown F header c) a' m c.backEdge = some (.goto header vals) :=
      (exec_branch found').mpr ⟨k, vals, (operand _ isTested).trans isW, by rwa [if_pos nonzero],
        by rw [if_pos nonzero]⟩
    have quiet : Quiet (watched f F header c) X (applyCountdown F header c) m a' _ b' :=
      .single_goto (alike.rest.trans current) test entered'
    rwa [observe_unwatched mirrors.func' unwatched_backEdge] at quiet
  · refine ⟨a', .refl a', ?_⟩
    subst isB
    refine ⟨mirrors.func, mirrors.func', mirrors.frame, ⟨[], by simpa using isHeader⟩,
      .inr ⟨rfl, alike.rest.trans current, ?_, ?_⟩⟩
    · intro x fresh
      have notParam : x ∉ F.blockParams header := by
        intro isParam
        rcases fresh with silent | notValue
        · exact h.param_notSilent isParam silent
        · exact notValue (mem_valuesOf.mpr (.inl isParam))
      exact (agree fresh).trans (bindParams_of_notMem notParam).symm
    · intro k isInt
      obtain rfl := decides isInt
      have isZero : k = 0 := by
        by_contra nonzero
        exact goesOn ⟨k, nonzero, rfl⟩
      subst isZero
      exact ⟨rfl, (operand _ isTested).trans isW⟩

end

theorem isTerminator_of_goto {inst : Inst} {data : InstData} {m : Mem} {target : BasicBlock}
    {vals : List Val} (found : F.insts inst = some data)
    (effect : exec X F a m inst = some (.goto target vals)) :
    data.kind.isTerminator = true ∧ target ∈ data.kind.bbUsage := by
  cases executes_of_exec found effect with
  | jump kind => simp [kind, InstKind.isTerminator, InstKind.bbUsage]
  | branch kind =>
    rw [kind]
    refine ⟨rfl, ?_⟩
    simp only [InstKind.bbUsage]
    split <;> simp

section

variable (h : Rotated P F header c)
include h

/-- An edge into the header that is not the back edge passes a value that is not
zero. -/
theorem Rotated.enters_nonzero {inst : Inst} {data : InstData} {m : Mem} {vals : List Val}
    {b : Activation} (globals : X.globals = P.globals) (found : F.insts inst = some data)
    (other : inst ≠ c.backEdge) (effect : exec X F a m inst = some (.goto header vals))
    (entered : a.enterBlock F header vals = some b) : b.env c.cond ≠ some (.int 0) := by
  have kind : F.kind inst = some data.kind := by simp [FunctionData.kind, found]
  have user : inst ∈ F.bbUsedBy header := mem_bbUsedBy.mpr
    ⟨h.wellFormed.inst_lt (by simp [found]), _, kind, (isTerminator_of_goto found effect).2⟩
  have nonzero := h.valid.enters user other
  obtain ⟨args, isJump⟩ := h.valid.jumps user
  obtain ⟨ty, isData⟩ := kind_eq_some isJump
  obtain ⟨vals', operands, same⟩ := (exec_jump isData).mp effect
  cases same
  simp only [passesNonzero, jumpArgs, isJump, Option.bind_some, Option.any_eq_true] at nonzero
  obtain ⟨arg, isArg, constant⟩ := nonzero
  split at constant
  · next k isInteger =>
      obtain ⟨argData, isArgData, isK⟩ := Option.map_eq_some_iff.mp isInteger
      have sameData : X.instData F arg = some argData := by
        rw [← isArgData]
        simp [Ctx.instData, Program.instData, globals]
      have passed : vals[(F.blockParams header).idxOf c.cond]? = some (.int k) := by
        rw [Ctx.operands_getElem operands, isArg, Option.bind_some]
        simp [Ctx.operand, sameData, isK, Ctx.isConst, Ctx.constVal]
      obtain ⟨length, insts, -, rfl⟩ := Activation.enterBlock_eq_some.mp entered
      intro isZero
      obtain ⟨ty, fits⟩ := h.bound_cond length passed isZero
      cases Val.fit_eq_int fits.symm
      simp at constant
  · cases constant

/-- All other instructions. -/
theorem Mirrors.answers_other (mirrors : Mirrors f X F header c a a')
    (alike : Alike F header c a a') (ok : CountdownOk F header c a) {m : Mem} {inst : Inst}
    {rest : List Inst} {e : Effect} (globals : X.globals = P.globals)
    (current : a.rest = inst :: rest) (notTerminator : inst ≠ c.terminator)
    (notBack : inst ≠ c.backEdge) (effect : exec X F a m inst = some e) :
    Answers (watched f F header c) X F (applyCountdown F header c) (Mirrors f X F header c) a a' m
      inst e := by
  obtain ⟨data, found⟩ := exec_isSome effect
  have found' : (applyCountdown F header c).insts inst = some data :=
    (insts_apply_of_ne notTerminator notBack).trans found
  have effect' : exec X (applyCountdown F header c) a' m inst = some e := by
    refine exec_congr found found' (mirrors.func'.trans mirrors.func.symm) mirrors.frame ?_ effect
    intro x used
    exact (sameOperand_apply h (alike.agree (mirrors.fresh h ok current found used))).carries
  have current' : a'.rest = inst :: rest := alike.rest.trans current
  have shows : observe (watched f F header c) a' inst e =
      observe (watched f F header c) a inst e := by
    simp only [observe, mirrors.func, mirrors.func']
  have defined : ∀ v, Mirrors f X F header c (a.define inst v) (a'.define inst v) := fun v =>
    ⟨mirrors.func, mirrors.func', mirrors.frame, suffix_next mirrors.suffix current rfl rfl,
      .inl (alike.define h current mirrors.suffix v)⟩
  cases e with
  | value v =>
    refine ⟨a'.define inst v, ?_, defined v⟩
    rw [← shows]
    exact .single_value current' effect'
  | goto target vals =>
    intro b entered
    rw [← shows]
    obtain ⟨isTerminator, -⟩ := isTerminator_of_goto found effect
    have outside : a.block ≠ header := by
      intro inHeader
      obtain ⟨done, block⟩ := mirrors.suffix
      rw [inHeader, current] at block
      have last := h.wellFormed.terminator_last block found isTerminator
      exact h.last_of_header block notTerminator last
    have agree : ∀ {x}, (a.env c.cond = some (.int 0) → Silent F x ∨ x ∉ valuesOf F header) →
        a'.env x = a.env x := fun fresh =>
      alike.atEnd h (fun inHeader => absurd inHeader outside) fresh
    have both : ∃ b', a'.enterBlock (applyCountdown F header c) target vals = some b' ∧
        Mirrors f X F header c b b' := by
      by_cases isHeader : target = header
      · subst isHeader
        exact mirrors.enterHeader h (fun fresh => agree fun _ => fresh) entered
          (h.enters_nonzero globals found notBack effect entered)
      · exact mirrors.enter h agree isHeader entered
    obtain ⟨b', entered', mirrors'⟩ := both
    exact ⟨b', .single_goto current' effect' entered', mirrors'⟩
  | write m' =>
    have silent : Silent F inst := by
      refine ⟨data.kind, by simp [FunctionData.kind, found], ?_⟩
      cases executes_of_exec found effect with
      | store kind => simp [kind]
      | memZero kind => simp [kind]
    exact ⟨a', inst, rest, .refl a', current', effect', shows, mirrors.func, mirrors.func',
      mirrors.frame, suffix_next mirrors.suffix current rfl rfl, .inl (alike.next current silent)⟩
  | call callee args =>
    refine ⟨a', inst, rest, .refl a', current', effect', shows, ?_⟩
    intro value b resumed
    obtain ⟨inst₁, rest₁, data₁, current₁, found₁, rfl⟩ := Activation.resume_eq_some.mp resumed
    cases current.symm.trans current₁
    cases found.symm.trans found₁
    exact ⟨_, Activation.resume_eq_some.mpr ⟨inst, rest, data, current', found', rfl⟩, defined _⟩
  | tailCall | ret => exact ⟨a', inst, rest, .refl a', current', effect', shows, trivial⟩

/-- A fresh activation stands outside the header. -/
theorem Rotated.start {frame : Nat} {args : List Val}
    (started : Activation.start F f frame args = some a) :
    ∃ a', Activation.start (applyCountdown F header c) f frame args = some a' ∧
      Mirrors f X F header c a a' := by
  obtain ⟨entry, insts, isEntry, length, block, rfl⟩ := Activation.start_eq_some.mp started
  have other : entry ≠ header := by
    rintro rfl
    exact h.notEntry isEntry
  refine ⟨_, Activation.start_eq_some.mpr ⟨entry, insts, isEntry, length, block, rfl⟩, rfl, rfl,
    rfl, ⟨[], by simpa using block⟩, .inl ⟨rfl, rfl, ?_, fun inHeader => absurd inHeader other⟩⟩
  intro x _
  exact congrFun (bindParams_apply h) x

theorem Rotated.localSim (globals : X.globals = P.globals) :
    LocalSim (watched f F header c) X F (applyCountdown F header c) (Mirrors f X F header c) f
      (fun a _ => CountdownOk F header c a) where
  func mirrors := ⟨mirrors.func, mirrors.func', mirrors.frame⟩
  start started := h.start started
  alloc := allocSize_apply h
  body := by
    obtain ⟨done, block⟩ := h.header_insts
    intro empty
    simp [FunctionData.blockInsts, empty] at block
  body' := by
    obtain ⟨done, block⟩ := h.header_insts
    intro empty
    have empty' : F.layout = [] := empty
    simp [FunctionData.blockInsts, empty'] at block
  step := by
    intro a a' m inst rest e mirrors ok current effect
    rcases mirrors.place with alike | leaving
    · by_cases isTerminator : inst = c.terminator
      · subst isTerminator
        exact mirrors.answers_terminator h alike current effect
      · by_cases isBack : inst = c.backEdge
        · subst isBack
          exact mirrors.answers_backEdge h alike ok current effect
        · exact mirrors.answers_other h alike ok globals current isTerminator isBack effect
    · exact mirrors.answers_leaving h leaving ok current effect

end

end Simulation

/-! ## Whole programs -/

section Program

variable {World : Type} {S : Setting World} {f : Function} {F : FunctionData} {header : BasicBlock}
  {c : Countdown}

/-- In every run in which the visits of the header that leave the loop have no
effect and no value of the header is read after them, the rotated program executes
all other instructions as often, in the same order and with the same effects. -/
theorem rotateCountdown_preserves (wellFormed : S.program.WellFormed)
    (data : S.program.funcData f = some F) (notEntry : F.entryBlock ≠ some header)
    (recognized : recognizeCountdown S.program F header = some c) {g : Function} {args : List Val}
    {σ : Shared World} {n : Nat} {s t : Setting.State World}
    (started : S.initial g args σ = some s) (ran : S.run n s = some t)
    (ok : ∀ k u, k < n → S.run k s = some u → Allowed f (fun a _ => CountdownOk F header c a) u) :
    S.MatchedBy (S.withFunction f (applyCountdown F header c)) (watched f F header c) g args
      σ n s t := by
  have rotated : Rotated S.program F header c :=
    ⟨(wellFormed.function data).1, (wellFormed.function data).2,
      recognizeCountdown_valid recognized, notEntry⟩
  exact (rotated.localSim rfl).matchedBy data started ok ran

end Program

/-- `v = 3; while (v) v = v - 1; return r` with `r` the counter or the constant 3. -/
def countdown (returned : Inst) : Listing where
  retTy := .int32
  name := "main"
  paramsTy := []
  layout := [(0, [10]), (1, [11]), (2, [12, 13]), (3, [14])]
  insts := [(0, ⟨.int32, .integer 3⟩), (1, ⟨.int32, .integer 1⟩), (2, ⟨.int32, .blockArgRef 0⟩),
    (10, ⟨.unit, .jump 1 [0]⟩), (11, ⟨.unit, .branch 2 2 [] 3 []⟩),
    (12, ⟨.int32, .binary .sub 2 1⟩), (13, ⟨.unit, .jump 1 [12]⟩),
    (14, ⟨.unit, .ret (some returned)⟩)]
  nextInst := 15
  blockParams := [(1, [2])]
  nextBlock := 4

def countdownProgram (returned : Inst) : Program := .ofListings [countdown returned] [] 0

def countdownLoop : Countdown where
  terminator := 11
  cond := 2
  body := 2
  exit := 3
  backEdge := 13
  backArgs := [12]
  tested := 12

/-- The exit may read the counter: its value there is 0, and 1 after the
rotation. -/
theorem rotateCountdown_reads_counter :
    (countdownProgram 2).WellFormed ∧ (countdown 2).toFunctionData.entryBlock ≠ some 1 ∧
      recognizeCountdown (countdownProgram 2) (countdown 2).toFunctionData 1 = some countdownLoop ∧
      ∃ n s t,
        (Setting.closed (countdownProgram 2)).initial 0 [] (.initial (countdownProgram 2)) =
          some s ∧
        (Setting.closed (countdownProgram 2)).run n s = some t ∧
        ¬ (Setting.closed (countdownProgram 2)).MatchedBy
          ((Setting.closed (countdownProgram 2)).withFunction 0
            (applyCountdown (countdown 2).toFunctionData 1 countdownLoop))
          (watched 0 (countdown 2).toFunctionData 1 countdownLoop) 0 []
            (.initial (countdownProgram 2))
          n s t := by
  have before : (Setting.closed (countdownProgram 2)).evalCall 20 0 []
      (.initial (countdownProgram 2)) = some (some (.int 0)) := by decide +kernel
  have after : ((Setting.closed (countdownProgram 2)).withFunction 0
      (applyCountdown (countdown 2).toFunctionData 1 countdownLoop)).evalCall 20 0 []
        (.initial (countdownProgram 2)) = some (some (.int 1)) := by decide +kernel
  obtain ⟨σ₁, s, started, n, ran⟩ := Setting.returns_of_evalCall before
  obtain ⟨σ₂, returns'⟩ := Setting.returns_of_evalCall after
  exact ⟨Program.wellFormed_ofListings (by decide +kernel), by decide +kernel, by decide +kernel,
    n, s, _, started, ran, not_matchedBy (by decide) returns'⟩

/-- When the exit returns a constant, the rotated loop does the same. -/
theorem rotateCountdown_preserves_constant :
    ∃ s t, (Setting.closed (countdownProgram 0)).initial 0 [] (.initial (countdownProgram 0)) =
      some s ∧ (Setting.closed (countdownProgram 0)).run 12 s = some t ∧
      (Setting.closed (countdownProgram 0)).MatchedBy
        ((Setting.closed (countdownProgram 0)).withFunction 0
          (applyCountdown (countdown 0).toFunctionData 1 countdownLoop))
        (watched 0 (countdown 0).toFunctionData 1 countdownLoop) 0 []
          (.initial (countdownProgram 0))
        12 s t := by
  have checked : ((Setting.closed (countdownProgram 0)).initial 0 []
      (.initial (countdownProgram 0))).any (fun s =>
        ((Setting.closed (countdownProgram 0)).run 12 s).isSome &&
        (Setting.closed (countdownProgram 0)).allStates (fun u => decide (Allowed 0
          (fun a _ => CountdownOk (countdown 0).toFunctionData 1 countdownLoop a) u)) 12 s)
      = true := by
    decide +kernel
  obtain ⟨s, started, checked⟩ := Option.any_eq_true _ _ |>.mp checked
  obtain ⟨finishes, allowed⟩ := Bool.and_eq_true_iff.mp checked
  obtain ⟨t, ran⟩ := Option.isSome_iff_exists.mp finishes
  refine ⟨s, t, started, ran, rotateCountdown_preserves
    (Program.wellFormed_ofListings (by decide +kernel)) rfl (by decide +kernel) (by decide +kernel)
    started ran ?_⟩
  intro k u lt reached
  exact of_decide_eq_true (Setting.allStates_spec allowed k u lt reached)

end AnonCompiler.Opt.RotateLoops
