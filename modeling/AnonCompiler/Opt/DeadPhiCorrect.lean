import AnonCompiler.Opt.DeadPhiForward
import AnonCompiler.Opt.DeadPhiTrim

/-!
# Dead parameters can be removed

The runs before and after trimming agree on everything but the removed parameters, which
nothing reads.  With the replacements before, the pass keeps the behaviour, and what an
edge passes to a parameter that stays is what it passed before, up to forwarding.
-/

set_option autoImplicit false

namespace AnonCompiler.Opt.DeadPhi

open Ir Lib Lib.Chains

/-! ## Runs without the removed parameters -/

/-- The parameter goes away. -/
def Removed (F : FunctionData) (x : Inst) : Prop :=
  ∃ bb i, (F.blockParams bb)[i]? = some x ∧ dropped F bb i = true

/-- The activations agree on what stays. -/
structure SameKept (F : FunctionData) (a a' : Activation) : Prop where
  func : a'.func = a.func
  frame : a'.frame = a.frame
  block : a'.block = a.block
  rest : a'.rest = a.rest
  laidOut : ∀ x ∈ a.rest, x ∈ F.layoutInsts
  env : ∀ x, ¬ Removed F x → a'.env x = a.env x

/-- What a terminator passes on. -/
def trimEffect (F : FunctionData) (done : BasicBlock → Bool) : Effect → Effect
  | .goto target vals => .goto target (trimList F done target vals)
  | e => e

/-- What a step shows, without what it passes to a block. -/
def withoutArgs : Seen → Seen
  | .visit block _ => .visit block []
  | seen => seen

section Trimmed

variable {F : FunctionData} {done : BasicBlock → Bool} {X : Ctx} {a b a' : Activation} {m : Mem}
  {inst x : Inst}

variable {G : FunctionData} {env env' : Env} {kept : Nat → Bool} {i : Nat} {vals : List Val}
  {bb : BasicBlock} {seen : List Seen} {o : Outcome}

/-- Nothing in the arena uses a removed parameter. -/
theorem Removed.unused (removed : Removed F x)
    (inst_lt : ∀ {inst}, F.insts inst ≠ none → inst < F.nextInst) {data : InstData}
    (found : F.insts inst = some data) : x ∉ data.kind.instUsage := by
  obtain ⟨bb, i, isParam, isDropped⟩ := removed
  have isUnused := ((Bool.and_eq_true _ _).mp isDropped).2
  rw [DeadPhi.isUnused, isParam] at isUnused
  have none := List.filter_eq_nil_iff.mp (of_decide_eq_true isUnused) inst
    (List.mem_range.mpr (inst_lt (by simp [found])))
  simpa [found] using none

theorem keepsArena_trimmed : KeepsArena F (trimmed F done) := by
  intro x data found
  simp only [trimmed, found, Option.map_some]
  split
  · refine ⟨_, rfl, rfl, fun isConst => ?_, fun notConst => ?_⟩
    · obtain ⟨ty, kind⟩ := data
      cases kind <;> first | rfl | cases isConst
    · obtain ⟨ty, kind⟩ := data
      cases kind <;> first | rfl | cases notConst
  · exact ⟨data, rfl, rfl, fun _ => rfl, fun notConst => notConst⟩

section

variable {args : List Inst} (same : ∀ x ∈ args, X.Carries F G env env' x x)
  (operands : X.operands F env args = some vals)
include same operands

theorem operands_keepFrom :
    X.operands G env' (keepFrom kept i args) = some (keepFrom kept i vals) := by
  induction args generalizing vals i with
  | nil =>
    cases operands
    rfl
  | cons first args ih =>
    simp only [Ctx.operands, List.mapM_cons, Option.bind_eq_bind, Option.bind_eq_some_iff,
      Option.pure_def, Option.some.injEq] at operands
    obtain ⟨v, here, vals, later, rfl⟩ := operands
    have later' := ih (i := i + 1) (fun x member => same x (List.mem_cons_of_mem _ member)) later
    rw [keepFrom, keepFrom]
    split
    · exact later'
    · simp only [Ctx.operands] at later'
      simp [Ctx.operands, List.mapM_cons, (same first List.mem_cons_self).value here, later']

theorem operands_trimList :
    X.operands G env' (trimList F done bb args) = some (trimList F done bb vals) := by
  unfold trimList
  split
  · exact operands_keepFrom same operands
  · have whole := Ctx.operands_remap id same operands
    rwa [List.map_id] at whole

end

/-- An instruction of the layout passes on what stays. -/
theorem exec_trimmed (inst_lt : ∀ {inst}, F.insts inst ≠ none → inst < F.nextInst)
    (same : SameKept F a a') (laidOut : inst ∈ F.layoutInsts) {e : Effect}
    (effect : exec X F a m inst = some e) :
    exec X (trimmed F done) a' m inst = some (trimEffect F done e) := by
  obtain ⟨⟨ty, kind⟩, found⟩ := exec_isSome effect
  have carries : ∀ x ∈ kind.instUsage, X.Carries F (trimmed F done) a.env a'.env x x :=
    fun x used => keepsArena_trimmed.carries fun _ _ =>
      same.env x fun removed => removed.unused inst_lt found used
  have found' : (trimmed F done).insts inst = some ⟨ty, trimmedKind F done kind⟩ := by
    simp [trimmed, found, laidOut]
  have other : trimmedKind F done kind = kind → (∀ target vals, e ≠ .goto target vals) →
      exec X (trimmed F done) a' m inst = some (trimEffect F done e) := by
    intro sameKind notGoto
    rw [sameKind] at found'
    have stays : trimEffect F done e = e := by
      cases e with
      | goto target vals => exact absurd rfl (notGoto target vals)
      | _ => rfl
    rw [stays]
    exact exec_congr found found' same.func same.frame carries effect
  cases executes_of_exec found effect with
  | @jump target args vals isJump operands =>
    cases isJump
    exact (exec_jump found').mpr ⟨_, operands_trimList carries operands, rfl⟩
  | @branch cond t e tArgs fArgs c vals isBranch decided operands =>
    cases isBranch
    have decided' := (carries cond (by simp [InstKind.instUsage])).value decided
    refine (exec_branch found').mpr ⟨c, _, decided', ?_, rfl⟩
    by_cases taken : c ≠ 0
    · rw [if_pos taken] at operands ⊢
      rw [if_pos taken]
      exact operands_trimList (fun x member => carries x (by simp [InstKind.instUsage, member]))
        operands
    · rw [if_neg taken] at operands ⊢
      rw [if_neg taken]
      exact operands_trimList (fun x member => carries x (by simp [InstKind.instUsage, member]))
        operands
  | pure value =>
    refine other ?_ fun _ _ same => by cases same
    cases kind <;> first | rfl | cases value
  | retVoid isKind | ret isKind | alloc isKind | store isKind | memZero isKind | load isKind
  | call isKind | tailCall isKind =>
    dsimp only at isKind
    subst isKind
    exact other rfl fun _ _ same => by cases same

/-- Parameters that stay are bound to the arguments that stay. -/
theorem bindParams_keepFrom {params : List Inst}
    (types : ∀ p, (G.insts p).map InstData.ty = (F.insts p).map InstData.ty)
    (length : vals.length = params.length) (stays : ∀ j, params[j]? = some x → kept (i + j) = false)
    (same : env' x = env x) :
    bindParams G env' (keepFrom kept i params) (keepFrom kept i vals) x =
      bindParams F env params vals x := by
  induction params generalizing vals i with
  | nil => exact same
  | cons first params ih =>
    cases vals with
    | nil => cases length
    | cons v vals =>
      have later := ih (i := i + 1) (Nat.succ.inj length) fun j isParam => by
        rw [Nat.add_assoc, Nat.add_comm 1]
        exact stays (j + 1) isParam
      rw [keepFrom, keepFrom]
      by_cases isFirst : x = first
      · subst isFirst
        have here := stays 0 rfl
        rw [Nat.add_zero] at here
        rw [if_neg (by simp [here]), if_neg (by simp [here]), bindParams, bindParams,
          Function.update_self, Function.update_self]
        have sameTy := types x
        cases found : F.insts x with
        | none =>
          rw [found, Option.map_none, Option.map_eq_none_iff] at sameTy
          rw [sameTy]
        | some data =>
          rw [found, Option.map_some, Option.map_eq_some_iff] at sameTy
          obtain ⟨data', found', ty⟩ := sameTy
          rw [found', Option.map_some, Option.map_some, ty]
      · rw [bindParams, Function.update_of_ne isFirst]
        split
        · exact later
        · rw [bindParams, Function.update_of_ne isFirst, later]

theorem trimList_length {args : List Inst} (length : vals.length = args.length) :
    (trimList F done bb vals).length = (trimList F done bb args).length := by
  unfold trimList
  split
  · exact keepFrom_length _ _ length
  · exact length

theorem enterBlock_trimmed (same : SameKept F a a') {target : BasicBlock}
    (entered : a.enterBlock F target vals = some b) :
    ∃ b', a'.enterBlock (trimmed F done) target (trimList F done target vals) = some b' ∧
      SameKept F b b' := by
  obtain ⟨length, insts, block, rfl⟩ := Activation.enterBlock_eq_some.mp entered
  refine ⟨_, Activation.enterBlock_eq_some.mpr ⟨trimList_length length, insts, block, rfl⟩,
    same.func, same.frame, rfl, rfl, fun x member => FunctionData.mem_layoutInsts block member,
    fun x kept => ?_⟩
  dsimp only [trimmed]
  unfold trimList
  split
  · refine bindParams_keepFrom trimmed_types length (fun j isParam => ?_) (same.env x kept)
    rw [Nat.zero_add]
    exact Bool.eq_false_iff.mpr fun isDropped => kept ⟨target, j, isParam, isDropped⟩
  · exact bindParams_sameTypes (fun p _ => trimmed_types p) (same.env x kept)

theorem start_trimmed {func : Function} {frame : Nat} {args : List Val}
    (started : Activation.start F func frame args = some a) :
    ∃ a', Activation.start (trimmed F done) func frame args = some a' ∧ SameKept F a a' := by
  obtain ⟨entry, isEntry, entered⟩ := Option.bind_eq_some_iff.mp started
  have keepsAll : ∀ i, dropped F entry i = false := fun i => by simp [dropped, isEntry]
  have nothing : SameKept F { func, frame, env := fun _ => none, block := entry, rest := [] }
      { func, frame, env := fun _ => none, block := entry, rest := [] } :=
    ⟨rfl, rfl, rfl, rfl, fun _ member => absurd member List.not_mem_nil, fun _ _ => rfl⟩
  obtain ⟨a', entered', same⟩ := enterBlock_trimmed nothing entered
  rw [trimList_of_none keepsAll] at entered'
  exact ⟨a', Option.bind_eq_some_iff.mpr ⟨entry, isEntry, entered'⟩, same⟩

theorem SameKept.define (same : SameKept F a a') (inst : Inst) (v : Val) :
    SameKept F (a.define inst v) (a'.define inst v) := by
  refine ⟨same.func, same.frame, same.block, congrArg List.tail same.rest,
    fun x member => same.laidOut x (List.mem_of_mem_tail member), fun x kept => ?_⟩
  simp only [Activation.define, Function.update_apply, same.env x kept]

theorem SameKept.next (same : SameKept F a a') : SameKept F a.next a'.next :=
  ⟨same.func, same.frame, same.block, congrArg List.tail same.rest,
    fun x member => same.laidOut x (List.mem_of_mem_tail member), same.env⟩

theorem SameKept.resume (same : SameKept F a a') {value : Option Val}
    (resumed : a.resume F value = some b) :
    ∃ b', a'.resume (trimmed F done) value = some b' ∧ SameKept F b b' := by
  obtain ⟨inst, rest, data, current, found, rfl⟩ := Activation.resume_eq_some.mp resumed
  have keeps : KeepsArena F (trimmed F done) := keepsArena_trimmed
  obtain ⟨data', found', sameTy, -⟩ := keeps found
  refine ⟨_, Activation.resume_eq_some.mpr ⟨inst, rest, data', by rw [same.rest, current], found',
    rfl⟩, ?_⟩
  rw [sameTy]
  exact same.define inst _

/-- A step without the removed parameters. -/
theorem step_trimmed (inst_lt : ∀ {inst}, F.insts inst ≠ none → inst < F.nextInst)
    (same : SameKept F a a') (step : OpenStep X F a m seen o) :
    ∃ seen' o', OpenStep X (trimmed F done) a' m seen' o' ∧
      seen'.map withoutArgs = seen.map withoutArgs ∧ Outcome.Related (SameKept F) o o' := by
  have onward : ∀ {inst rest e}, a.rest = inst :: rest → exec X F a m inst = some e →
      a'.rest = inst :: rest ∧ exec X (trimmed F done) a' m inst = some (trimEffect F done e) :=
    fun current effect => ⟨by rw [same.rest, current],
      exec_trimmed inst_lt same (same.laidOut _ (by rw [current]; exact List.mem_cons_self)) effect⟩
  cases step with
  | value current effect =>
    obtain ⟨current', effect'⟩ := onward current effect
    exact ⟨_, _, .value current' effect', rfl, .running _ (same.define _ _)⟩
  | write current effect =>
    obtain ⟨current', effect'⟩ := onward current effect
    exact ⟨_, _, .write current' effect', rfl, .running _ same.next⟩
  | goto current effect entered =>
    obtain ⟨current', effect'⟩ := onward current effect
    obtain ⟨b', entered', same'⟩ := enterBlock_trimmed same entered
    exact ⟨_, _, .goto current' effect' entered', rfl, .running _ same'⟩
  | call m' current effect resumed =>
    obtain ⟨current', effect'⟩ := onward current effect
    obtain ⟨b', resumed', same'⟩ := same.resume resumed
    exact ⟨_, _, .call m' current' effect' resumed', rfl, .running _ same'⟩
  | tailCall current effect =>
    obtain ⟨current', effect'⟩ := onward current effect
    exact ⟨_, _, .tailCall current' effect', rfl, .done⟩
  | ret current effect =>
    obtain ⟨current', effect'⟩ := onward current effect
    exact ⟨_, _, .ret current' effect', rfl, .done⟩

theorem run_trimmed (inst_lt : ∀ {inst}, F.insts inst ≠ none → inst < F.nextInst)
    (run : OpenRun X F a m seen o) (same : SameKept F a a') :
    ∃ seen' o', OpenRun X (trimmed F done) a' m seen' o' ∧
      seen'.map withoutArgs = seen.map withoutArgs ∧ Outcome.Related (SameKept F) o o' := by
  induction run generalizing a' with
  | refl a m => exact ⟨[], _, .refl a' m, rfl, .running m same⟩
  | step first _ ih =>
    obtain ⟨seen', o', first', shown, related⟩ := step_trimmed inst_lt same first
    cases related with
    | running m same' =>
      obtain ⟨later', o', rest', shown', related⟩ := ih same'
      exact ⟨_, o', .step first' rest', by rw [List.map_append, List.map_append, shown, shown'],
        related⟩
  | last final =>
    obtain ⟨seen', o', final', shown, related⟩ := step_trimmed inst_lt same final
    cases related with
    | done => exact ⟨seen', .done, .last final', shown, .done⟩

end Trimmed

/-! ## Edges -/

section Edges

variable {P : Program} {F G : FunctionData} {done : BasicBlock → Bool}
  {resolved : Inst → Option Inst} {bb : BasicBlock} {e e' : LogicalEdge}

/-- The terminators of the same edges pass on what stays. -/
theorem outgoingEdges_trimmed (bb : BasicBlock) :
    (trimmed F done).outgoingEdges bb = (F.outgoingEdges bb).map fun e =>
      { e with args := trimList F done e.target e.args } := by
  have sameTerminator : (trimmed F done).terminator bb = F.terminator bb := rfl
  rw [FunctionData.outgoingEdges, FunctionData.outgoingEdges, sameTerminator]
  cases isTerminator : F.terminator bb with
  | none => rfl
  | some inst =>
    obtain ⟨insts, block, isLast⟩ := Option.bind_eq_some_iff.mp isTerminator
    have laidOut := FunctionData.mem_layoutInsts block (List.mem_of_getLast? isLast)
    have isKind : (trimmed F done).kind inst = (F.kind inst).map (trimmedKind F done) := by
      simp only [FunctionData.kind, trimmed, Option.map_map]
      congr 1
      funext data
      simp [laidOut]
    dsimp only
    rw [isKind]
    cases found : F.kind inst with
    | none => rfl
    | some kind => cases kind <;> rfl

/-- An edge of the rewritten function is one of the original function. -/
theorem Rewrites.origin_edge (h : Rewrites P F resolved G) (leaves : e' ∈ G.outgoingEdges bb) :
    ∃ e ∈ F.outgoingEdges bb, e.target = e'.target ∧
      ∃ f : Inst → Inst, (∀ x, ReplacedBy resolved x (f x)) ∧ e'.args = e.args.map f := by
  have isTerminator := (terminator_of_edge leaves).2
  have sameTerminator : G.terminator bb = F.terminator bb := by
    rw [FunctionData.terminator, h.blockInsts, FunctionData.terminator]
  rw [sameTerminator] at isTerminator
  have jumpEdges : ∀ {target args}, F.kind e'.terminator = some (.jump target args) →
      F.outgoingEdges bb = [⟨bb, e'.terminator, .jump, target, args⟩] := by
    intro target args isKind
    rw [FunctionData.outgoingEdges, isTerminator]
    dsimp only
    rw [isKind]
  have branchEdges : ∀ {cond tTarget tArgs fTarget fArgs},
      F.kind e'.terminator = some (.branch cond tTarget tArgs fTarget fArgs) →
      F.outgoingEdges bb = [⟨bb, e'.terminator, .onTrue, tTarget, tArgs⟩,
        ⟨bb, e'.terminator, .onFalse, fTarget, fArgs⟩] := by
    intro cond tTarget tArgs fTarget fArgs isKind
    rw [FunctionData.outgoingEdges, isTerminator]
    dsimp only
    rw [isKind]
  -- an arm of the rewritten terminator is an arm of the original one
  have arm : ∀ {kind kind' : InstKind}, Rewritten P F resolved kind kind' →
      F.kind e'.terminator = some kind →
      (kind' = .jump e'.target e'.args ∨
        (∃ cond fTarget fArgs, kind' = .branch cond e'.target e'.args fTarget fArgs) ∨
        ∃ cond tTarget tArgs, kind' = .branch cond tTarget tArgs e'.target e'.args) →
      ∃ e ∈ F.outgoingEdges bb, e.target = e'.target ∧
        ∃ f : Inst → Inst, (∀ x, ReplacedBy resolved x (f x)) ∧ e'.args = e.args.map f := by
    intro kind kind' rewritten isKind cases
    cases rewritten with
    | operands f each =>
      cases kind with
      | jump target args =>
        rw [jumpEdges isKind]
        rcases cases with same | ⟨_, _, _, same⟩ | ⟨_, _, _, same⟩
        · obtain ⟨isTarget, isArgs⟩ := InstKind.jump.inj same
          exact ⟨_, List.mem_singleton_self _, isTarget, f, each, isArgs.symm⟩
        · cases same
        · cases same
      | branch cond tTarget tArgs fTarget fArgs =>
        rw [branchEdges isKind]
        rcases cases with same | ⟨_, _, _, same⟩ | ⟨_, _, _, same⟩
        · cases same
        · obtain ⟨-, isTarget, isArgs, -, -⟩ := InstKind.branch.inj same
          exact ⟨_, List.mem_cons_self, isTarget, f, each, isArgs.symm⟩
        · obtain ⟨-, -, -, isTarget, isArgs⟩ := InstKind.branch.inj same
          exact ⟨_, List.mem_cons_of_mem _ (List.mem_singleton_self _), isTarget, f, each,
            isArgs.symm⟩
      | memZero dest byteLen =>
        cases byteLen <;> rcases cases with same | ⟨_, _, _, same⟩ | ⟨_, _, _, same⟩ <;> cases same
      | _ => rcases cases with same | ⟨_, _, _, same⟩ | ⟨_, _, _, same⟩ <;> cases same
    | folded f each =>
      rw [branchEdges isKind]
      split at cases
      · rcases cases with same | ⟨_, _, _, same⟩ | ⟨_, _, _, same⟩
        · obtain ⟨isTarget, isArgs⟩ := InstKind.jump.inj same
          exact ⟨_, List.mem_cons_of_mem _ (List.mem_singleton_self _), isTarget, f, each,
            isArgs.symm⟩
        · cases same
        · cases same
      · rcases cases with same | ⟨_, _, _, same⟩ | ⟨_, _, _, same⟩
        · obtain ⟨isTarget, isArgs⟩ := InstKind.jump.inj same
          exact ⟨_, List.mem_cons_self, isTarget, f, each, isArgs.symm⟩
        · cases same
        · cases same
  have whole : ∃ kind', G.kind e'.terminator = some kind' ∧ (kind' = .jump e'.target e'.args ∨
      (∃ cond fTarget fArgs, kind' = .branch cond e'.target e'.args fTarget fArgs) ∨
      ∃ cond tTarget tArgs, kind' = .branch cond tTarget tArgs e'.target e'.args) := by
    rcases kind_of_edge leaves with ⟨-, isKind⟩ | ⟨cond, fTarget, fArgs, -, isKind⟩ |
      ⟨cond, tTarget, tArgs, -, isKind⟩
    · exact ⟨_, isKind, .inl rfl⟩
    · exact ⟨_, isKind, .inr (.inl ⟨_, _, _, rfl⟩)⟩
    · exact ⟨_, isKind, .inr (.inr ⟨_, _, _, rfl⟩)⟩
  obtain ⟨kind', isKind', cases⟩ := whole
  obtain ⟨data', found', rfl⟩ := Option.map_eq_some_iff.mp isKind'
  obtain ⟨data, found, -, rewritten⟩ := h.origin found'
  exact arm rewritten (by rw [FunctionData.kind, found, Option.map_some]) cases

/-- The arguments of an accepted edge have the types of the parameters. -/
theorem Accepted.edge (accepted : Accepted P F) (leaves : e ∈ F.outgoingEdges bb) :
    e.args.map (P.typeOf F) = (F.blockParams e.target).map (P.typeOf F) := by
  obtain ⟨insts, block, isLast⟩ := Option.bind_eq_some_iff.mp (terminator_of_edge leaves).2
  have laidOut := FunctionData.mem_layoutInsts block (List.mem_of_getLast? isLast)
  rcases kind_of_edge leaves with ⟨-, isKind⟩ | ⟨cond, fTarget, fArgs, -, isKind⟩ |
    ⟨cond, tTarget, tArgs, -, isKind⟩
  all_goals
    obtain ⟨data, found, kind⟩ := Option.map_eq_some_iff.mp isKind
    have accepts := accepted laidOut found
    rw [kind] at accepts
  · exact of_decide_eq_true accepts
  · exact of_decide_eq_true ((Bool.and_eq_true _ _).mp accepts).1
  · exact of_decide_eq_true ((Bool.and_eq_true _ _).mp accepts).2

theorem trimList_sublist {α : Type} (list : List α) : (trimList F done bb list).Sublist list := by
  unfold trimList
  split
  · exact keepFrom_sublist list
  · exact .refl _

theorem trimList_zip {α β : Type} {first : List α} {second : List β}
    (length : first.length = second.length) :
    (trimList F done bb first).zip (trimList F done bb second) =
      trimList F done bb (first.zip second) := by
  unfold trimList
  split
  · exact (keepFrom_zip first second length).symm
  · rfl

end Edges

/-! ## The pass -/

/-- Every run has a counterpart that ends alike and shows the same, apart from what is passed to
blocks. -/
def Preserves (X : Ctx) (F F' : FunctionData) : Prop :=
  ∀ {func frame args a}, Activation.start F func frame args = some a →
    ∃ a', Activation.start F' func frame args = some a' ∧ ∀ {m seen o}, OpenRun X F a m seen o →
      ∃ seen' o', OpenRun X F' a' m seen' o' ∧ seen'.map withoutArgs = seen.map withoutArgs ∧
        Outcome.Related (fun _ _ => True) o o'

/-- Every parameter that stays gets an argument of its type on every edge, the one it got before
or the end of its chain. -/
structure Aligned (P : Program) (F F' : FunctionData) : Prop where
  types : ∀ {bb e}, e ∈ F'.outgoingEdges bb →
    e.args.map (P.typeOf F') = (F'.blockParams e.target).map (P.typeOf F')
  positions : ∀ {bb e'}, e' ∈ F'.outgoingEdges bb → ∃ e ∈ F.outgoingEdges bb, e.target = e'.target ∧
    ∃ f : Inst → Inst, (∀ x, f x = x ∨ Leads (forward (forwardedBlockParams F)) x (f x)) ∧
      ((F'.blockParams e'.target).zip e'.args).Sublist
        ((F.blockParams e.target).zip (e.args.map f))

section Pass

variable {P : Program} {F G : FunctionData} {order : Order} {resolved : Inst → Option Inst}
  {done : BasicBlock → Bool}

theorem Rewrites.aligned (h : Rewrites P F resolved G) (resolves : ResolvesParams F resolved)
    (wellFormed : F.WellFormed) (types : F.Shaped P) : Aligned P F (trimmed G done) := by
  have accepted : Accepted P G := h.accepted resolves wellFormed types
  refine ⟨fun {bb e} leaves => ?_, fun {bb e'} leaves => ?_⟩
  · rw [outgoingEdges_trimmed] at leaves
    obtain ⟨e, before, rfl⟩ := List.mem_map.mp leaves
    dsimp only
    rw [typeOf_trimmed, ← trimList_map, accepted.edge before, trimList_map]
    rfl
  · rw [outgoingEdges_trimmed] at leaves
    obtain ⟨g, before, rfl⟩ := List.mem_map.mp leaves
    have length := congrArg List.length (accepted.edge before)
    rw [List.length_map, List.length_map] at length
    obtain ⟨e, isEdge, isTarget, f, each, isArgs⟩ := h.origin_edge before
    refine ⟨e, isEdge, isTarget, f, fun x => ?_, ?_⟩
    · exact (each x).imp id fun isResolved => ((resolves x _).mp isResolved).2
    · have whole : ((trimmed G done).blockParams g.target).zip (trimList G done g.target g.args) =
          trimList G done g.target ((G.blockParams g.target).zip g.args) := trimList_zip length.symm
      dsimp only
      rw [whole, isTarget, ← isArgs, ← h.blockParams]
      exact trimList_sublist _

/-- A parameter that is gone is used by nothing. -/
theorem notMem_of_removed (inst_lt : ∀ {inst}, F.insts inst ≠ none → inst < F.nextInst)
    {bb : BasicBlock} {p inst : Inst} {data : InstData} (isParam : p ∈ F.blockParams bb)
    (gone : p ∉ (trimmed F done).blockParams bb) (found : (trimmed F done).insts inst = some data) :
    p ∉ data.kind.instUsage := by
  obtain ⟨i, isParam⟩ := List.mem_iff_getElem?.mp isParam
  have isDropped : dropped F bb i = true := by
    by_contra kept
    refine gone ?_
    simp only [trimmed, trimList]
    split
    · exact mem_keepFrom isParam (by rw [Nat.zero_add]; exact Bool.eq_false_iff.mpr kept)
    · exact List.mem_of_getElem? isParam
  have removed : Removed F p := ⟨bb, i, isParam, isDropped⟩
  obtain ⟨old, isOld, rfl⟩ := Option.map_eq_some_iff.mp found
  have unused := removed.unused inst_lt isOld
  split
  · intro used
    refine unused ?_
    dsimp only at used
    cases kind : old.kind with
    | jump target args =>
      rw [kind] at used
      exact (trimList_sublist args).subset used
    | branch cond tTarget tArgs fTarget fArgs =>
      rw [kind] at used
      rcases List.mem_cons.mp used with isCond | used
      · exact List.mem_cons.mpr (.inl isCond)
      · refine List.mem_cons.mpr (.inr (List.mem_append.mpr ?_))
        exact (List.mem_append.mp used).imp (fun used => (trimList_sublist tArgs).subset used)
          fun used => (trimList_sublist fArgs).subset used
    | _ =>
      rw [kind] at used
      exact used
  · exact unused

/-- The pass does not panic and keeps the behaviour.  Every edge passes each remaining parameter
one argument of its type, the parameters of the entry block stay, and nothing uses a parameter
that is gone. -/
theorem runOn_preserves (wellFormed : F.WellFormed) (ssa : F.Ssa) (types : F.Shaped P)
    (walks : order.Walks F) :
    ∃ F' changed, runOn P order F = some (F', changed) ∧
      (∀ X : Ctx, X.globals = P.globals → Preserves X F F') ∧ Aligned P F F' ∧
      F'.layout = F.layout ∧ F'.params = F.params ∧
      (∀ bb, F.entryBlock = some bb → F'.blockParams bb = F.blockParams bb) ∧
      (∀ bb, (F'.blockParams bb).Sublist (F.blockParams bb)) ∧
      ∀ {bb p inst data}, p ∈ F.blockParams bb → p ∉ F'.blockParams bb →
        F'.insts inst = some data → p ∉ data.kind.instUsage := by
  obtain ⟨resolved, run, resolves⟩ := resolveForwardedParams_spec walks.keys
  have resolves : ResolvesParams F resolved := resolves
  have h : Rewrites P F resolved (replaceAll P resolved order.resolved F) :=
    Rewrites.refl.replaceAll resolves.ends order.resolved
  generalize isG : replaceAll P resolved order.resolved F = G at h
  have inst_lt : ∀ {inst}, G.insts inst ≠ none → inst < G.nextInst := by
    intro inst found
    obtain ⟨data', found'⟩ := Option.ne_none_iff_exists'.mp found
    obtain ⟨data, found, -⟩ := h.origin found'
    rw [h.nextInst]
    exact wellFormed.inst_lt (by simp [found])
  have blocks : G.blocks = F.blocks := by rw [FunctionData.blocks, h.layout, FunctionData.blocks]
  have trims : (G.blocks.map fun bb => (bb, unusedParams G bb)).foldlM (trimBlock P order)
      (trimmed G fun _ => false) = some (trimmed G fun b => false || b ∈ G.blocks) :=
    foldlM_trimBlock inst_lt walks.users (h.accepted resolves wellFormed types)
      (blocks ▸ wellFormed.blocks_nodup) fun _ _ => rfl
  rw [trimmed_nothing] at trims
  refine ⟨trimmed G fun b => false || b ∈ G.blocks,
    order.resolved ≠ [] || (G.blocks.map fun bb => (bb, unusedParams G bb)).any (·.2 ≠ []), ?_,
    fun X globals => ?_,
    h.aligned resolves wellFormed types, h.layout, ?_, fun bb isEntry => ?_, fun bb => ?_,
    fun {bb p inst data} isParam gone found => ?_⟩
  · simp only [runOn, run, isG, trims, Option.bind_eq_bind, Option.bind_some]
  · intro func frame args a started
    obtain ⟨a', started', runs⟩ := h.refines resolves wellFormed ssa types globals started
    obtain ⟨a'', started'', same⟩ := start_trimmed started'
    refine ⟨a'', started'', fun {m seen o} run => ?_⟩
    obtain ⟨o', run', related⟩ := runs run
    rw [shownBy_all] at run'
    obtain ⟨seen', o'', run'', shown, related'⟩ := run_trimmed inst_lt run' same
    refine ⟨seen', o'', run'', shown, ?_⟩
    cases related with
    | running m _ =>
      cases related' with
      | running m _ => exact .running m trivial
    | done =>
      cases related' with
      | done => exact .done
  · have params : G.params = F.params := by rw [h.same]
    exact params
  · have keepsAll : ∀ i, dropped G bb i = false := fun i => by
      simp [dropped, h.entryBlock, isEntry]
    rw [trimmed_blockParams, trimList_of_none keepsAll, h.blockParams]
  · rw [← h.blockParams, trimmed_blockParams]
    exact trimList_sublist _
  · rw [← h.blockParams] at isParam
    exact notMem_of_removed inst_lt isParam gone found

/-- Both parameters of the chain go away. -/
theorem runOn_preserves_loop : ∃ F' changed,
    runOn ⟨[], [], fun _ => none, [], none⟩ ⟨[6, 4], [4, 6], id⟩ forwardingLoop.toFunctionData =
      some (F', changed) ∧ changed = true ∧ F'.blockParams 1 = [] ∧ F'.blockParams 2 = [] ∧
      Aligned ⟨[], [], fun _ => none, [], none⟩ forwardingLoop.toFunctionData F' := by
  have isForwarded : forwardedBlockParams forwardingLoop.toFunctionData = [(4, 2), (6, 4)] := by
    decide
  have table : forwardingLoop.ssaBy [(0, [0]), (1, [0, 2, 4]), (2, [6])] := by decide
  have walks : Order.Walks ⟨[6, 4], [4, 6], id⟩ forwardingLoop.toFunctionData := by
    refine ⟨fun p => by rw [isForwarded]; simp [or_comm], fun {resolved} run p => ?_,
      fun users => .refl _⟩
    rw [isForwarded] at run
    have known : (resolveForwardedParams [(4, 2), (6, 4)] [6, 4]).map (fun resolved =>
        (resolved 4, resolved 6)) = some (some 2, some 2) := by decide
    rw [run] at known
    simp only [Option.map_some, Option.some.injEq, Prod.mk.injEq] at known
    have order : IsKeyOrder [(4, 2), (6, 4)] [6, 4] := fun p => by simp [or_comm]
    obtain ⟨resolved', run', spec⟩ := resolveForwardedParams_spec order
    obtain rfl := Option.some.inj (run.symm.trans run')
    constructor
    · intro member
      rcases List.mem_cons.mp member with rfl | member
      · rw [known.1]
        rfl
      · rw [List.mem_singleton.mp member, known.2]
        rfl
    · intro isResolved
      obtain ⟨v, isV⟩ := Option.isSome_iff_exists.mp isResolved
      simpa using forward_isSome_iff.mp ((spec p v).mp isV).1
  obtain ⟨F', changed, run, -, aligned, -⟩ := runOn_preserves
    (Listing.wellFormed_toFunctionData (L := forwardingLoop) (by decide))
    (Listing.ssa_toFunctionData table)
    (Listing.shaped_toFunctionData (P := ⟨[], [], fun _ => none, [], none⟩) rfl (by decide)) walks
  have whole : (runOn ⟨[], [], fun _ => none, [], none⟩ ⟨[6, 4], [4, 6], id⟩
      forwardingLoop.toFunctionData).map (fun r => (r.2, r.1.blockParams 1, r.1.blockParams 2)) =
        some (true, [], []) := by decide
  rw [run] at whole
  simp only [Option.map_some, Option.some.injEq, Prod.mk.injEq] at whole
  exact ⟨F', changed, run, whole.1, whole.2.1, whole.2.2, aligned⟩

end Pass

end AnonCompiler.Opt.DeadPhi
