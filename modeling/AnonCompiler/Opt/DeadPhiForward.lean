import AnonCompiler.Opt.DeadPhi
import AnonCompiler.Opt.EdgeRewriter
import AnonCompiler.Opt.PreheaderRuns

/-!
# Replacing forwarded parameters

However the table is walked, every instruction becomes one with some of its operands
replaced by the ends of their chains, or the jump of a branch whose condition has become a
constant.  Wherever the instruction is executed both have the same values.
-/

set_option autoImplicit false

namespace AnonCompiler.Opt.DeadPhi

open Ir Lib Lib.Chains

/-- The operand itself, or the value it is resolved to. -/
def ReplacedBy (resolved : Inst → Option Inst) (x y : Inst) : Prop := y = x ∨ resolved x = some y

/-- What the replacements make of an instruction. -/
inductive Rewritten (P : Program) (F : FunctionData) (resolved : Inst → Option Inst) :
    InstKind → InstKind → Prop where
  | operands {kind : InstKind} (f : Inst → Inst) (each : ∀ x, ReplacedBy resolved x (f x)) :
      Rewritten P F resolved kind (kind.remapRefs f id)
  | folded {cond cond' : Inst} {tTarget fTarget : BasicBlock} {tArgs fArgs : List Inst}
      {value : BitVec 32} (f : Inst → Inst) (each : ∀ x, ReplacedBy resolved x (f x))
      (isCond : ReplacedBy resolved cond cond')
        (isConst : kindIn P F cond' = some (.integer value)) :
      Rewritten P F resolved (.branch cond tTarget tArgs fTarget fArgs)
        (if value = 0 then .jump fTarget (fArgs.map f) else .jump tTarget (tArgs.map f))

/-- The function with the replacements made so far. -/
structure Rewrites (P : Program) (F : FunctionData) (resolved : Inst → Option Inst)
    (G : FunctionData) : Prop where
  same : G = { F with insts := G.insts }
  insts : ∀ x, Option.Rel (fun data data' => data'.ty = data.ty ∧
    Rewritten P F resolved data.kind data'.kind) (F.insts x) (G.insts x)

section Replace

variable {P : Program} {F G : FunctionData} {resolved : Inst → Option Inst} {rep repWith : Inst}
  {kind kind' : InstKind}

theorem remapRefs_remapRefs (f g : Inst → Inst) (kind : InstKind) :
    (kind.remapRefs f id).remapRefs g id = kind.remapRefs (g ∘ f) id := by
  cases kind with
  | memZero dest byteLen => cases byteLen <;> rfl
  | ret value => cases value <;> rfl
  | _ => simp [InstKind.remapRefs]

/-- A user is rebuilt with the other operand, left as it is, or folded. -/
theorem replaceKind_cases (P : Program) (F : FunctionData) (repWith : Inst)
    (uses : rep ∈ kind.instUsage) :
    Gvn.replaceKind P F rep repWith kind = kind.remapRefs (swapped rep repWith) id ∨
    Gvn.replaceKind P F rep repWith kind = kind ∨
    ∃ cond tTarget tArgs fTarget fArgs value, kind = .branch cond tTarget tArgs fTarget fArgs ∧
      kindIn P F (swapped rep repWith cond) = some (.integer value) ∧
      Gvn.replaceKind P F rep repWith kind =
        if value = 0 then .jump fTarget fArgs else .jump tTarget tArgs := by
  cases kind with
  | cast src | load src =>
    have same : rep = src := List.mem_singleton.mp uses
    exact .inl (by simp [Gvn.replaceKind, InstKind.remapRefs, swapped, same])
  | memZero dest byteLen => cases byteLen <;> exact .inl rfl
  | ret value => cases value <;> exact .inl rfl
  | globalAlloc init => exact .inr (.inl rfl)
  | branch cond tTarget tArgs fTarget fArgs =>
    unfold Gvn.replaceKind
    have same : (if cond = rep then repWith else cond) = swapped rep repWith cond := rfl
    simp only [same]
    split
    · next value isConstant =>
        exact .inr (.inr ⟨cond, tTarget, tArgs, fTarget, fArgs, value, rfl, isConstant, rfl⟩)
    · exact .inl rfl
  | _ => exact .inl rfl

/-- Replacing once more. -/
theorem ReplacedBy.swapped (ends : ∀ {p v}, resolved p = some v → resolved v = none)
    (isResolved : resolved rep = some repWith) {x y : Inst} (h : ReplacedBy resolved x y) :
    ReplacedBy resolved x (swapped rep repWith y) := by
  unfold Opt.swapped
  split
  · next here =>
      subst here
      rcases h with rfl | further
      · exact .inr isResolved
      · rw [ends further] at isResolved
        cases isResolved
  · exact h

theorem Rewritten.replace (ends : ∀ {p v}, resolved p = some v → resolved v = none)
    (isResolved : resolved rep = some repWith)
    (constants : ∀ {x value}, kindIn P G x = some (.integer value) →
      kindIn P F x = some (.integer value))
    (h : Rewritten P F resolved kind kind') (uses : rep ∈ kind'.instUsage) :
    Rewritten P F resolved kind (Gvn.replaceKind P G rep repWith kind') := by
  have again : ∀ {f : Inst → Inst}, (∀ x, ReplacedBy resolved x (f x)) →
      ∀ x, ReplacedBy resolved x ((Opt.swapped rep repWith ∘ f) x) :=
    fun each x => (each x).swapped ends isResolved
  cases h with
  | operands f each =>
    rcases replaceKind_cases P G repWith uses with rebuilt | left |
      ⟨cond, tTarget, tArgs, fTarget, fArgs, value, isBranch, isConst, rebuilt⟩
    · rw [rebuilt, remapRefs_remapRefs]
      exact .operands _ (again each)
    · rw [left]
      exact .operands f each
    · rw [rebuilt]
      cases kind with
      | branch c t tA e eA =>
        cases isBranch
        exact .folded f each (again each c) (constants isConst)
      | memZero dest byteLen => cases byteLen <;> cases isBranch
      | _ => cases isBranch
  | @folded cond cond' tTarget fTarget tArgs fArgs value f each isCond isConst =>
    have jump : ∀ target args, Gvn.replaceKind P G rep repWith (.jump target args) =
        .jump target (args.map (Opt.swapped rep repWith)) := fun _ _ => rfl
    have whole : Rewritten P F resolved (.branch cond tTarget tArgs fTarget fArgs)
        (if value = 0 then .jump fTarget (fArgs.map (Opt.swapped rep repWith ∘ f))
          else .jump tTarget (tArgs.map (Opt.swapped rep repWith ∘ f))) :=
      .folded (Opt.swapped rep repWith ∘ f) (again each) isCond isConst
    rw [← List.map_map, ← List.map_map, ← jump, ← jump] at whole
    split at whole <;> rename_i zero
    · rwa [if_pos zero]
    · rwa [if_neg zero]

theorem Rewrites.refl : Rewrites P F resolved F := by
  refine ⟨rfl, fun x => ?_⟩
  cases F.insts x with
  | none => exact .none
  | some data =>
    refine .some ⟨rfl, ?_⟩
    have whole : Rewritten P F resolved data.kind (data.kind.remapRefs id id) :=
      .operands id fun _ => .inl rfl
    rwa [InstKind.remapRefs_id] at whole

namespace Rewrites

variable (h : Rewrites P F resolved G)

include h in
/-- No instruction becomes an integer. -/
theorem constants {x : Inst} {value : BitVec 32} (isConst : kindIn P G x = some (.integer value)) :
    kindIn P F x = some (.integer value) := by
  unfold kindIn Program.instData at *
  split at isConst
  · next isGlobal => rwa [if_pos isGlobal]
  · next isLocal =>
      rw [if_neg isLocal]
      obtain ⟨data', found', isKind⟩ := Option.map_eq_some_iff.mp isConst
      have related := h.insts x
      rw [found'] at related
      cases found : F.insts x with
      | none =>
        rw [found] at related
        cases related
      | some data =>
        rw [found] at related
        cases related with
        | some both =>
          obtain ⟨ty, kind⟩ := data
          obtain ⟨ty', kind'⟩ := data'
          obtain ⟨-, rewritten⟩ := both
          dsimp only at rewritten isKind
          subst isKind
          generalize isInteger : InstKind.integer value = target at rewritten
          cases rewritten with
          | operands f each =>
            cases kind with
            | integer v =>
              cases isInteger
              rfl
            | memZero dest byteLen => cases byteLen <;> cases isInteger
            | _ => cases isInteger
          | folded f each isCond isConst =>
            split at isInteger <;> cases isInteger

include h in
theorem replace (ends : ∀ {p v}, resolved p = some v → resolved v = none)
    (isResolved : resolved rep = some repWith) :
    Rewrites P F resolved (Gvn.visitAndReplace P G rep repWith) := by
  refine ⟨?_, fun x => ?_⟩
  · exact congrArg (fun H : FunctionData =>
      { H with insts := (Gvn.visitAndReplace P G rep repWith).insts }) h.same
  · have related := h.insts x
    simp only [Gvn.visitAndReplace]
    generalize F.insts x = before at related
    generalize G.insts x = now at related
    cases related with
    | none => exact .none
    | some both =>
      refine .some ?_
      dsimp only
      split
      · next uses => exact ⟨both.1, both.2.replace ends isResolved h.constants uses⟩
      · exact both

include h in
theorem replaceAll (ends : ∀ {p v}, resolved p = some v → resolved v = none) (keys : List Inst) :
    Rewrites P F resolved (replaceAll P resolved keys G) := by
  induction keys generalizing G with
  | nil => exact h
  | cons key keys ih =>
    rw [DeadPhi.replaceAll]
    cases isResolved : resolved key with
    | none => exact ih h
    | some replacement => exact ih (h.replace ends isResolved)

include h

theorem layout : G.layout = F.layout := by rw [h.same]

theorem blockParams : G.blockParams = F.blockParams := by rw [h.same]

theorem nextInst : G.nextInst = F.nextInst := by rw [h.same]

theorem blockInsts (bb : BasicBlock) : G.blockInsts bb = F.blockInsts bb := by rw [h.same]; rfl

theorem types (x : Inst) : (G.insts x).map InstData.ty = (F.insts x).map InstData.ty := by
  have related := h.insts x
  generalize F.insts x = before at related
  generalize G.insts x = now at related
  cases related with
  | none => rfl
  | some both => exact congrArg some both.1

theorem typeOf : P.typeOf G = P.typeOf F := typeOf_congr h.types

theorem found {x : Inst} {data : InstData} (found : F.insts x = some data) :
    ∃ data', G.insts x = some data' ∧ data'.ty = data.ty ∧
      Rewritten P F resolved data.kind data'.kind := by
  have related := h.insts x
  rw [found] at related
  generalize G.insts x = now at related
  cases related with
  | some both => exact ⟨_, rfl, both⟩

theorem origin {x : Inst} {data' : InstData} (found : G.insts x = some data') :
    ∃ data, F.insts x = some data ∧ data'.ty = data.ty ∧
      Rewritten P F resolved data.kind data'.kind := by
  have related := h.insts x
  rw [found] at related
  generalize F.insts x = before at related
  cases related with
  | some both => exact ⟨_, rfl, both⟩

end Rewrites

end Replace

/-! ## The values -/

/-- A parameter is resolved to the end of its chain. -/
def ResolvesParams (F : FunctionData) (resolved : Inst → Option Inst) : Prop :=
  ∀ p v, resolved p = some v ↔ (forward (forwardedBlockParams F) p).isSome ∧
    Leads (forward (forwardedBlockParams F)) p v

section Values

variable {P : Program} {F G : FunctionData} {resolved : Inst → Option Inst} {p v x y : Inst}
  {X : Ctx} {a b : Activation} {m m' : Mem} {seen : List Seen} {done rest : List Inst} {inst : Inst}

/-- A value that is forwarded has the type of the parameter. -/
theorem typeOf_forward (types : F.Shaped P)
    (found : forward (forwardedBlockParams F) p = some x) : P.typeOf F x = P.typeOf F p := by
  obtain ⟨bb, -, found⟩ := List.mem_flatMap.mp (mem_of_lookup found)
  obtain ⟨⟨parameter, i⟩, isParam, found⟩ := List.mem_filterMap.mp found
  obtain ⟨first, isFirst, found⟩ := Option.bind_eq_some_iff.mp found
  obtain ⟨e, isEdge, isArg⟩ := Option.bind_eq_some_iff.mp isFirst
  split at found
  · cases found
    obtain ⟨source, -, leaves⟩ := List.mem_flatMap.mp (List.mem_of_mem_head? isEdge)
    obtain ⟨outgoing, isTarget⟩ := List.mem_filter.mp leaves
    obtain rfl := of_decide_eq_true isTarget
    have sameTy := congrArg (·[i]?) (types.edge outgoing)
    simpa only [List.getElem?_map, isArg, List.mem_zipIdx_iff_getElem?.mp isParam, Option.map_some,
      Option.some.injEq] using sameTy
  · cases found

theorem typeOf_leads (types : F.Shaped P) (chain : Leads (forward (forwardedBlockParams F)) p v) :
    P.typeOf F v = P.typeOf F p := by
  induction chain with
  | out => rfl
  | step step _ ih => rw [ih, typeOf_forward types step]

section Resolved

variable (resolves : ResolvesParams F resolved)

include resolves

theorem ResolvesParams.ends (isResolved : resolved p = some v) : resolved v = none := by
  refine Option.eq_none_iff_forall_ne_some.mpr fun w further => ?_
  have isForwarded := ((resolves v w).mp further).1
  rw [((resolves p v).mp isResolved).2.ends] at isForwarded
  cases isForwarded

theorem ResolvesParams.isParam (isResolved : resolved p = some v) : ∃ bb, p ∈ F.blockParams bb := by
  obtain ⟨x, isX⟩ := Option.isSome_iff_exists.mp ((resolves p v).mp isResolved).1
  exact (forwarded_of_lookup isX).isParam

theorem ResolvesParams.typeOf (types : F.Shaped P) (replaced : ReplacedBy resolved x y) :
    P.typeOf F y = P.typeOf F x := by
  rcases replaced with rfl | isResolved
  · rfl
  · exact typeOf_leads types ((resolves x y).mp isResolved).2

/-- A constant is never replaced. -/
theorem ResolvesParams.eq_of_isConst (wellFormed : F.WellFormed) (isConst : F.IsConst x)
    (replaced : ReplacedBy resolved x y) : y = x := by
  refine replaced.resolve_right fun isResolved => ?_
  obtain ⟨bb, isParam⟩ := resolves.isParam isResolved
  exact not_isConst_of_param wellFormed isParam isConst

end Resolved

theorem isConst_of_constBytes {ty : Ty} {bytes : List MByte}
    (isBytes : Ctx.constBytes (X.instData F) ty x = some bytes) : F.IsConst x := by
  by_contra notConst
  refine Option.some_ne_none bytes (isBytes.symm.trans (Ctx.constBytes_unknown ty ?_))
  intro data found
  refine Bool.eq_false_iff.mpr fun isConst => notConst ?_
  unfold Ctx.instData at found
  split at found
  · next isGlobal => exact .inl isGlobal
  · exact .inr ⟨data, found, isConst⟩

/-- A constant keeps its kind. -/
theorem Rewritten.const {kind kind' : InstKind} (h : Rewritten P F resolved kind kind')
    (isConst : Ctx.isConst kind = true) :
    ∃ f, (∀ x, ReplacedBy resolved x (f x)) ∧ kind' = kind.remapRefs f id := by
  cases h with
  | operands f each => exact ⟨f, each, rfl⟩
  | folded => cases isConst

theorem Rewritten.notConst {kind kind' : InstKind} (h : Rewritten P F resolved kind kind')
    (notConst : Ctx.isConst kind = false) : Ctx.isConst kind' = false := by
  cases h with
  | operands f each =>
    cases kind with
    | memZero dest byteLen => cases byteLen <;> rfl
    | _ => first | rfl | cases notConst
  | folded => split <;> rfl

namespace Rewrites

variable (h : Rewrites P F resolved G)

include h

theorem instData {data : InstData} (found : X.instData F x = Option.some data) :
    ∃ data', X.instData G x = Option.some data' ∧ data'.ty = data.ty ∧
      Rewritten P F resolved data.kind data'.kind := by
  unfold Ctx.instData at *
  split at found
  · next isGlobal =>
      have whole : Rewritten P F resolved data.kind (data.kind.remapRefs id id) :=
        .operands id fun _ => .inl rfl
      rw [InstKind.remapRefs_id] at whole
      exact ⟨data, by rw [if_pos isGlobal, found], rfl, whole⟩
  · next isLocal =>
      rw [if_neg isLocal]
      exact h.found found

variable (resolves : ResolvesParams F resolved) (wellFormed : F.WellFormed)

include resolves wellFormed

/-- The elements of a constant are constants, so they stay. -/
theorem constBytes (ty : Ty) : ∀ {x bytes}, Ctx.constBytes (X.instData F) ty x = Option.some bytes →
    Ctx.constBytes (X.instData G) ty x = Option.some bytes := by
  induction ty with
  | array base len ih =>
    intro x bytes isBytes
    cases found : X.instData F x with
    | none =>
      rw [Ctx.constBytes, found] at isBytes
      cases isBytes
    | some data =>
      obtain ⟨data', found', -, rewritten⟩ := h.instData found
      obtain ⟨ty, kind⟩ := data
      obtain ⟨ty', kind'⟩ := data'
      simp only [Ctx.constBytes, found] at isBytes
      simp only [Ctx.constBytes, found']
      cases kind with
      | aggregate value =>
        obtain ⟨f, each, isKind⟩ := rewritten.const rfl
        obtain ⟨lists, isLists, rfl⟩ := Option.map_eq_some_iff.mp isBytes
        dsimp only at isKind
        subst isKind
        have mapped : (value.map f).mapM (Ctx.constBytes (X.instData G) base) =
            Option.some lists := by
          clear isBytes found found' rewritten
          induction value generalizing lists with
          | nil => exact isLists
          | cons first value ihValue =>
            simp only [List.mapM_cons, Option.bind_eq_bind, Option.bind_eq_some_iff,
              Option.pure_def, Option.some.injEq] at isLists
            obtain ⟨list, isList, rest, isRest, rfl⟩ := isLists
            have stays : f first = first :=
              resolves.eq_of_isConst wellFormed (isConst_of_constBytes isList) (each first)
            simp [List.mapM_cons, stays, ih isList, ihValue rest isRest]
        simp only [InstKind.remapRefs, mapped, Option.map_some]
      | zeroInit | undef =>
        obtain ⟨f, each, isKind⟩ := rewritten.const rfl
        dsimp only at isKind
        subst isKind
        exact isBytes
      | _ => cases isBytes
  | _ =>
    intro x bytes isBytes
    cases found : X.instData F x with
    | none =>
      simp only [Ctx.constBytes, found] at isBytes
      cases isBytes
    | some data =>
      obtain ⟨data', found', -, rewritten⟩ := h.instData found
      obtain ⟨ty, kind⟩ := data
      obtain ⟨ty', kind'⟩ := data'
      simp only [Ctx.constBytes, found] at isBytes
      simp only [Ctx.constBytes, found']
      cases kind with
      | integer value | float bits | zeroInit | undef =>
        obtain ⟨f, each, isKind⟩ := rewritten.const rfl
        dsimp only at isKind
        subst isKind
        exact isBytes
      | _ => cases isBytes

/-- An operand that stays. -/
theorem carries_self (env : Env) (x : Inst) : X.Carries F G env env x x := by
  refine ⟨fun {v} isV => ?_, fun {data} found => ?_⟩
  · unfold Ctx.operand at isV
    split at isV
    · cases isV
    · next data found =>
        obtain ⟨data', found', sameTy, rewritten⟩ := h.instData found
        rw [Ctx.operand, found']
        dsimp only
        cases isConst : Ctx.isConst data.kind with
        | false =>
          rw [if_neg (by simp [isConst])] at isV
          rw [if_neg (by simp [rewritten.notConst isConst])]
          exact isV
        | true =>
          rw [if_pos isConst] at isV
          obtain ⟨f, each, isKind⟩ := rewritten.const isConst
          obtain ⟨ty, kind⟩ := data
          obtain ⟨ty', kind'⟩ := data'
          dsimp only at isKind sameTy isConst
          subst isKind sameTy
          cases kind with
          | aggregate value =>
            obtain ⟨bytes, isBytes, rfl⟩ := Option.map_eq_some_iff.mp isV
            have bytes' := h.constBytes resolves wellFormed _ isBytes
            simp [Ctx.isConst, InstKind.remapRefs, Ctx.constVal, bytes']
          | undef | zeroInit | integer value | float bits | globalAlloc init => exact isV
          | _ => cases isConst
  · obtain ⟨data', found', sameTy, -⟩ := h.instData found
    exact ⟨data', found', sameTy⟩

/-- An operand and what it is replaced by, where an instruction uses it. -/
theorem carries (ssa : F.Ssa) (types : F.Shaped P) (globals : X.globals = P.globals)
    (forwards : Forwards X F a done) (available : F.IsConst x ∨ F.Avail a.block done x)
    (replaced : ReplacedBy resolved x y) : X.Carries F G a.env a.env x y := by
  have self := h.carries_self (X := X) resolves wellFormed a.env y
  rcases replaced with rfl | isResolved
  · exact self
  · obtain ⟨isForwarded, chain⟩ := (resolves x y).mp isResolved
    obtain ⟨bb, isParam⟩ := resolves.isParam isResolved
    have available := available.resolve_left (not_isConst_of_param wellFormed isParam)
    refine ⟨fun {v} isV => self.value ?_, fun {data} found => ?_⟩
    · rw [operand_param wellFormed isParam] at isV
      rw [forwards.leads wellFormed ssa isForwarded chain available, isV]
    · rw [Ctx.instData_eq globals] at found
      have sameTy := typeOf_leads types chain
      rw [Program.typeOf, Program.typeOf, found, Option.map_some] at sameTy
      obtain ⟨data', found', isTy⟩ := Option.map_eq_some_iff.mp sameTy
      rw [← Ctx.instData_eq globals] at found'
      obtain ⟨data'', found'', isTy'⟩ := self.ty found'
      exact ⟨data'', found'', isTy'.trans isTy⟩

end Rewrites

end Values

/-! ## The runs -/

section Runs

variable {P : Program} {F G : FunctionData} {resolved : Inst → Option Inst} {X : Ctx}
  {a b : Activation} {m : Mem} {done rest : List Inst} {inst : Inst}

namespace Rewrites

variable (h : Rewrites P F resolved G)

include h

theorem enterBlock (target : BasicBlock) (vals : List Val) :
    a.enterBlock G target vals = a.enterBlock F target vals := by
  have bound : bindParams G a.env (F.blockParams target) vals =
      bindParams F a.env (F.blockParams target) vals :=
    funext fun x => bindParams_sameTypes (fun p _ => h.types p) rfl
  rw [Activation.enterBlock, Activation.enterBlock, h.blockParams, h.blockInsts, bound]

theorem entryBlock : G.entryBlock = F.entryBlock := by rw [h.same]; rfl

theorem start (func : Function) (frame : Nat) (args : List Val) :
    Activation.start G func frame args = Activation.start F func frame args := by
  simp only [Activation.start, h.entryBlock, h.enterBlock]

theorem resume (value : Option Val) : a.resume G value = a.resume F value := by
  unfold Activation.resume
  split
  · rfl
  · next inst rest current =>
      have sameTy := h.types inst
      cases found : F.insts inst with
      | none =>
        rw [found, Option.map_none, Option.map_eq_none_iff] at sameTy
        rw [sameTy]
      | some data =>
        rw [found, Option.map_some, Option.map_eq_some_iff] at sameTy
        obtain ⟨data', found', isTy⟩ := sameTy
        rw [found', Option.map_some, Option.map_some, isTy]

variable (resolves : ResolvesParams F resolved) (wellFormed : F.WellFormed) (ssa : F.Ssa)
  (types : F.Shaped P) (globals : X.globals = P.globals)

include resolves wellFormed ssa types globals

/-- A rewritten instruction has the effect of the original one. -/
theorem exec (forwards : Forwards X F a done) (current : a.rest = inst :: rest) {e : Effect}
    (effect : exec X F a m inst = Option.some e) : exec X G a m inst = Option.some e := by
  obtain ⟨⟨ty, kind⟩, found⟩ := exec_isSome effect
  obtain ⟨⟨ty', kind'⟩, found', sameTy, rewritten⟩ := h.found found
  dsimp only at sameTy rewritten
  subst sameTy
  have carries : ∀ {x y}, x ∈ kind.instUsage → ReplacedBy resolved x y →
      X.Carries F G a.env a.env x y := fun used =>
    h.carries resolves wellFormed ssa types globals forwards
      (ssa.uses (forwards.placed current) found used)
  cases rewritten with
  | operands f each =>
    have mapped := exec_remap f id found found' (fun _ => ⟨rfl, rfl, rfl⟩)
      (fun x used => carries used (each x)) effect
    rwa [Effect.retarget_id] at mapped
  | @folded cond cond' tTarget fTarget tArgs fArgs value f each isCond isConst =>
    obtain ⟨c, vals, decided, operands, rfl⟩ := (exec_branch found).mp effect
    have decided' := (carries (by simp [InstKind.instUsage]) isCond).value decided
    -- the branch takes the arm that the jump has kept
    have isValue : c = value := by
      obtain ⟨data, isData, isKind⟩ := Option.map_eq_some_iff.mp isConst
      rw [← Ctx.instData_eq globals] at isData
      obtain ⟨data', found'', -, rewritten⟩ := h.instData isData
      obtain ⟨g, -, isKind'⟩ := rewritten.const (by rw [isKind]; rfl)
      have isInteger : data'.kind = .integer value := by
        rw [isKind', isKind]
        rfl
      rw [Ctx.operand, found''] at decided'
      dsimp only at decided'
      rw [isInteger, if_pos (show Ctx.isConst (.integer value) = true from rfl), Ctx.constVal,
        isInteger] at decided'
      cases decided'
      rfl
    subst isValue
    have arm : ∀ {args}, (∀ x ∈ args, x ∈ tArgs ++ fArgs) → ∀ {vals},
        X.operands F a.env args = Option.some vals →
          X.operands G a.env (args.map f) = Option.some vals := by
      intro args inside vals operands
      exact Ctx.operands_remap f (fun x member =>
        carries (List.mem_cons_of_mem _ (inside x member)) (each x)) operands
    by_cases zero : c = 0
    · rw [if_pos zero] at found'
      rw [if_neg (not_not.mpr zero)] at operands
      exact (exec_jump found').mpr ⟨vals, arm (by simp +contextual) operands, by
        rw [if_neg (not_not.mpr zero)]⟩
    · rw [if_neg zero] at found'
      rw [if_pos zero] at operands
      exact (exec_jump found').mpr ⟨vals, arm (by simp +contextual) operands, by rw [if_pos zero]⟩

/-- The runs are the same, block for block. -/
theorem refines : Refines X F G fun _ => true := by
  refine OpenSim.refines (R := fun a a' => a' = a ∧ ∃ done, Forwards X F a done) ?_ ?_
  · rintro a a' m seen o ⟨rfl, done, forwards⟩ step
    have onward : ∀ {b m'}, OpenStep X F a' m seen (.running b m') →
        Outcome.Related (fun a a' => a' = a ∧ ∃ done, Forwards X F a done) (.running b m')
          (.running b m') := fun step =>
      .running _ ⟨rfl, forwards.openStep types globals wellFormed ssa step⟩
    have same : ∀ {inst rest e}, a'.rest = inst :: rest → Ir.exec X F a' m inst = Option.some e →
        Ir.exec X G a' m inst = Option.some e := fun current effect =>
      h.exec resolves wellFormed ssa types globals forwards current effect
    rw [shownBy_all]
    have whole := step
    cases step with
    | value current effect =>
      exact ⟨_, .single (.value current (same current effect)), onward whole⟩
    | write current effect =>
      exact ⟨_, .single (.write current (same current effect)), onward whole⟩
    | goto current effect entered =>
      rw [← h.enterBlock] at entered
      exact ⟨_, .single (.goto current (same current effect) entered), onward whole⟩
    | call m' current effect resumed =>
      rw [← h.resume] at resumed
      exact ⟨_, .single (.call m' current (same current effect) resumed), onward whole⟩
    | tailCall current effect =>
      exact ⟨_, .single (.tailCall current (same current effect)), .done⟩
    | ret current effect => exact ⟨_, .single (.ret current (same current effect)), .done⟩
  · intro func frame args a started
    exact ⟨a, (h.start ..).trans started, rfl, [], .start wellFormed started⟩

end Rewrites

end Runs

/-! ## The edges -/

section Edges

variable {P : Program} {F G : FunctionData} {resolved : Inst → Option Inst} {inst : Inst}

theorem accepted_of_shaped (wellFormed : F.WellFormed) (types : F.Shaped P) : Accepted P F := by
  intro inst data laidOut found
  obtain ⟨⟨bb, insts⟩, entry, member⟩ := List.mem_flatMap.mp laidOut
  have block := FunctionData.blockInsts_of_mem wellFormed.blocks_nodup entry
  obtain ⟨pre, rest, rfl⟩ := List.append_of_mem member
  have edges : data.kind.isTerminator = true → ∀ e : LogicalEdge,
      e ∈ F.outgoingEdges bb → argsFit P F e.target e.args := fun _ e leaves =>
    decide_eq_true (types.edge leaves)
  have isLast : data.kind.isTerminator = true → F.terminator bb = some inst := by
    intro isTerminator
    obtain rfl := wellFormed.terminator_last block found isTerminator
    rw [FunctionData.terminator, block, Option.bind_some, List.getLast?_concat]
  have isKind : F.kind inst = some data.kind := by rw [FunctionData.kind, found, Option.map_some]
  cases kind : data.kind with
  | jump target args =>
    have whole := edges (by rw [kind]; rfl) ⟨bb, inst, .jump, target, args⟩ (by
      rw [FunctionData.outgoingEdges, isLast (by rw [kind]; rfl)]
      simp [isKind, kind])
    exact whole
  | branch cond tTarget tArgs fTarget fArgs =>
    have onTrue := edges (by rw [kind]; rfl) ⟨bb, inst, .onTrue, tTarget, tArgs⟩ (by
      rw [FunctionData.outgoingEdges, isLast (by rw [kind]; rfl)]
      simp [isKind, kind])
    have onFalse := edges (by rw [kind]; rfl) ⟨bb, inst, .onFalse, fTarget, fArgs⟩ (by
      rw [FunctionData.outgoingEdges, isLast (by rw [kind]; rfl)]
      simp [isKind, kind])
    exact (Bool.and_eq_true _ _).mpr ⟨onTrue, onFalse⟩
  | _ => rfl

/-- Replacing keeps the types of the arguments. -/
theorem Rewritten.accepts {kind kind' : InstKind} (h : Rewritten P F resolved kind kind')
    (same : ∀ {x y}, ReplacedBy resolved x y → P.typeOf F y = P.typeOf F x)
    (accepted : accepts P F kind) : accepts P F kind' := by
  have fits : ∀ {f : Inst → Inst}, (∀ x, ReplacedBy resolved x (f x)) → ∀ {target args},
      argsFit P F target args → argsFit P F target (args.map f) := by
    intro f each target args fit
    have types : P.typeOf F ∘ f = P.typeOf F := funext fun x => same (each x)
    refine decide_eq_true ?_
    rw [List.map_map, types]
    exact of_decide_eq_true fit
  cases h with
  | operands f each =>
    cases kind with
    | jump target args => exact fits each accepted
    | branch cond tTarget tArgs fTarget fArgs =>
      obtain ⟨onTrue, onFalse⟩ := (Bool.and_eq_true _ _).mp accepted
      exact (Bool.and_eq_true _ _).mpr ⟨fits each onTrue, fits each onFalse⟩
    | memZero dest byteLen => cases byteLen <;> rfl
    | _ => rfl
  | folded f each =>
    obtain ⟨onTrue, onFalse⟩ := (Bool.and_eq_true _ _).mp accepted
    split
    · exact fits each onFalse
    · exact fits each onTrue

theorem Rewrites.accepted (h : Rewrites P F resolved G) (resolves : ResolvesParams F resolved)
    (wellFormed : F.WellFormed) (types : F.Shaped P) : Accepted P G := by
  intro inst data laidOut found
  obtain ⟨old, isOld, -, rewritten⟩ := h.origin found
  have laidOut' : inst ∈ F.layoutInsts := by
    rwa [FunctionData.layoutInsts, ← h.layout]
  have whole := rewritten.accepts (resolves.typeOf types)
    (accepted_of_shaped wellFormed types laidOut' isOld)
  have sameFit : ∀ target args, argsFit P G target args = argsFit P F target args := by
    intro target args
    rw [argsFit, argsFit, h.typeOf, h.blockParams]
  cases kind : data.kind with
  | jump target args =>
    rw [kind] at whole
    exact (sameFit target args).trans whole
  | branch cond tTarget tArgs fTarget fArgs =>
    rw [kind] at whole
    rw [DeadPhi.accepts, sameFit, sameFit]
    exact whole
  | _ => rfl

end Edges

end AnonCompiler.Opt.DeadPhi
