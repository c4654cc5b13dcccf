import AnonCompiler.Frontend.ConstContext

/-!
# The two evaluations agree

On a constant expression either translation pushes what evaluating every operand gives, or
fails with it.
-/

set_option autoImplicit false

namespace AnonCompiler.Frontend.AstGen

open AnonCompiler.Ir (BasicBlock BinaryOp Layout truth)

variable {ctx ctx' : AstGenContext} {val : Inst} {v : BitVec 32} {bb : BasicBlock}
variable {names : Ident → Option (BitVec 32)}

/-- In the global scope every name stands for its constant. -/
def GlobalNames (names : Ident → Option (BitVec 32)) (ctx : AstGenContext) : Prop :=
  ∃ scope, ctx.globalScope = some scope ∧
    ∀ ident v, names ident = some v → ∃ val, scope ident = some (.constant val) ∧ Holds ctx val v

/-- From where the expression stands every name refers to its constant, and code can be added. -/
structure LocalNames (names : Ident → Option (BitVec 32)) (ctx : AstGenContext) : Prop where
  isOpen : ∃ bb, Open ctx bb
  refers : ∀ ident v, names ident = some v →
    ∃ val, ctx.getSymbol ident = some (.constant val) ∧ Holds ctx val v

/-- What holds on still when values are added, whatever is on the value stack. -/
structure Stable (valid : AstGenContext → Prop) : Prop where
  grow : ∀ {ctx ctx'}, valid ctx → Grew ctx ctx' → valid ctx'
  stack : ∀ {ctx}, valid ctx → ∀ stack, valid { ctx with valStack := stack }

theorem Holds.stack (holds : Holds ctx val v) (stack : List Inst) :
    Holds { ctx with valStack := stack } val v := by
  cases val <;> exact ⟨holds.1, holds.2⟩

theorem Open.stack (isOpen : Open ctx bb) (stack : List Inst) :
    Open { ctx with valStack := stack } bb :=
  ⟨isOpen.1, isOpen.2, isOpen.3, isOpen.4, isOpen.5, isOpen.6⟩

theorem stable_globalNames : Stable (GlobalNames names) where
  grow := by
    rintro ctx ctx' ⟨scope, isScope, refers⟩ grew
    refine ⟨scope, by rw [AstGenContext.globalScope, grew.symbolTable]; exact isScope, ?_⟩
    intro ident v isName
    obtain ⟨val, isConstant, holds⟩ := refers ident v isName
    exact ⟨val, isConstant, grew.holds holds⟩
  stack := by
    rintro ctx ⟨scope, isScope, refers⟩ stack
    refine ⟨scope, isScope, fun ident v isName => ?_⟩
    obtain ⟨val, isConstant, holds⟩ := refers ident v isName
    exact ⟨val, isConstant, holds.stack stack⟩

theorem stable_localNames : Stable (LocalNames names) where
  grow := by
    rintro ctx ctx' ⟨⟨bb, isOpen⟩, refers⟩ grew
    refine ⟨⟨bb, isOpen.grow grew⟩, fun ident v isName => ?_⟩
    obtain ⟨val, isConstant, holds⟩ := refers ident v isName
    refine ⟨val, ?_, grew.holds holds⟩
    rw [AstGenContext.getSymbol, grew.symbolTable]
    exact isConstant
  stack := by
    rintro ctx ⟨⟨bb, isOpen⟩, refers⟩ stack
    refine ⟨⟨bb, isOpen.stack stack⟩, fun ident v isName => ?_⟩
    obtain ⟨val, isConstant, holds⟩ := refers ident v isName
    exact ⟨val, isConstant, holds.stack stack⟩

/-- The translation has pushed an integer. -/
structure Pushed (ctx ctx' : AstGenContext) (v : BitVec 32) : Prop where
  grew : Grew ctx ctx'
  pushed : ∃ val, ctx'.valStack = val :: ctx.valStack ∧ Holds ctx' val v

theorem pushed_pushLocal (ctx : AstGenContext) (v : BitVec 32) :
    Pushed ctx (ctx.pushLocal v) v where
  grew := (Grew.newLocalValue ctx (.integer v)).withStack ctx.valStack _
  pushed := ⟨.local ctx.nextInst, rfl, Nat.lt_succ_self _, Function.update_self ..⟩

theorem pushed_pushGlobal (ctx : AstGenContext) (v : BitVec 32) :
    Pushed ctx (ctx.pushGlobal v) v where
  grew := (Grew.newGlobalValue ctx (.integer v)).withStack ctx.valStack _
  pushed := ⟨.global ctx.nextGlobal, rfl, Nat.lt_succ_self _, Function.update_self ..⟩

/-- From any valid context the translation pushes the result, or fails when there is none. -/
structure Gives (valid : AstGenContext → Prop) (translate : Translation)
    (result : Option (BitVec 32)) : Prop where
  fails : result = none → ∀ ctx, valid ctx → translate ctx = none
  gives : ∀ v, result = some v → ∀ ctx, valid ctx → ∃ ctx', translate ctx = some ctx' ∧
    Pushed ctx ctx' v

section Operators

variable {valid : AstGenContext → Prop} {first second operate : Translation}
  {a b : Option (BitVec 32)} {overflowChecks : Bool}

variable {mid base : AstGenContext} {x y : BitVec 32} {ident : Ident} {t : Tree}

theorem Pushed.popVal (pushed : Pushed ctx ctx' v) : ∃ val, ctx'.popVal =
    some ({ ctx' with valStack := ctx.valStack }, val) ∧ Holds ctx' val v := by
  obtain ⟨val, isStack, holds⟩ := pushed.pushed
  exact ⟨val, by rw [AstGenContext.popVal, isStack], holds⟩

/-- What is pushed on the same values. -/
theorem Pushed.after (pushed : Pushed mid ctx' v) (grew : Grew ctx mid)
    (stack : mid.valStack = ctx.valStack) : Pushed ctx ctx' v :=
  ⟨grew.trans pushed.grew, stack ▸ pushed.pushed⟩

theorem Gives.unary {fold : BitVec 32 → Option (BitVec 32)} (arg : Gives valid first a)
    (operates : ∀ {ctx ctx' x}, valid ctx → Pushed ctx ctx' x →
      (fold x = none → operate ctx' = none) ∧
      ∀ v, fold x = some v → ∃ ctx'', operate ctx' = some ctx'' ∧ Pushed ctx ctx'' v) :
    Gives valid (fun ctx => (first ctx).bind operate) (a.bind fold) := by
  constructor
  · intro isNone ctx isValid
    cases isArg : a with
    | none => rw [arg.fails isArg ctx isValid, Option.bind_none]
    | some x =>
      obtain ⟨ctx', ran, pushed⟩ := arg.gives x isArg ctx isValid
      rw [isArg, Option.bind_some] at isNone
      rw [ran, Option.bind_some, (operates isValid pushed).1 isNone]
  · intro v isSome ctx isValid
    obtain ⟨x, isArg, result⟩ := Option.bind_eq_some_iff.mp isSome
    obtain ⟨ctx', ran, pushed⟩ := arg.gives x isArg ctx isValid
    rw [ran, Option.bind_some]
    exact (operates isValid pushed).2 v result

theorem Gives.binary (stable : Stable valid) {fold : BitVec 32 → BitVec 32 → Option (BitVec 32)}
    (lhs : Gives valid first a) (rhs : Gives valid second b)
    (operates : ∀ {ctx mid ctx' x y}, valid ctx → Pushed ctx mid x → Pushed mid ctx' y →
      (fold x y = none → operate ctx' = none) ∧
      ∀ v, fold x y = some v → ∃ ctx'', operate ctx' = some ctx'' ∧ Pushed ctx ctx'' v) :
    Gives valid (fun ctx => do operate (← second (← first ctx)))
      (do fold (← a) (← b)) := by
  constructor
  · intro isNone ctx isValid
    cases isLhs : a with
    | none => simp only [lhs.fails isLhs ctx isValid, Option.bind_eq_bind, Option.bind_none]
    | some x =>
      obtain ⟨mid, ran, pushed⟩ := lhs.gives x isLhs ctx isValid
      have isValid' := stable.grow isValid pushed.grew
      simp only [ran, Option.bind_eq_bind, Option.bind_some]
      cases isRhs : b with
      | none => simp only [rhs.fails isRhs mid isValid', Option.bind_none]
      | some y =>
        obtain ⟨ctx', ran', pushed'⟩ := rhs.gives y isRhs mid isValid'
        simp only [isLhs, isRhs, Option.bind_eq_bind, Option.bind_some] at isNone
        rw [ran', Option.bind_some, (operates isValid pushed pushed').1 isNone]
  · intro v isSome ctx isValid
    obtain ⟨x, isLhs, more⟩ := Option.bind_eq_some_iff.mp isSome
    obtain ⟨y, isRhs, result⟩ := Option.bind_eq_some_iff.mp more
    obtain ⟨mid, ran, pushed⟩ := lhs.gives x isLhs ctx isValid
    obtain ⟨ctx', ran', pushed'⟩ := rhs.gives y isRhs mid (stable.grow isValid pushed.grew)
    simp only [ran, ran', Option.bind_eq_bind, Option.bind_some]
    exact (operates isValid pushed pushed').2 v result

/-- The two operands of an operator are taken off the stack. -/
theorem popVal_twice (lhs : Pushed ctx mid x) (rhs : Pushed mid ctx' y) :
    ∃ l r between, ctx'.popVal = some (between, r) ∧
      between.popVal = some ({ ctx' with valStack := ctx.valStack }, l) ∧
      ({ ctx' with valStack := ctx.valStack } : AstGenContext).instKind l = some (.integer x) ∧
      ({ ctx' with valStack := ctx.valStack } : AstGenContext).instKind r = some (.integer y) := by
  obtain ⟨l, isStack, holdsL⟩ := lhs.pushed
  obtain ⟨r, popped, holdsR⟩ := rhs.popVal
  refine ⟨l, r, _, popped, by rw [AstGenContext.popVal, isStack], ?_, ?_⟩
  · exact ((rhs.grew.holds holdsL).stack _).isInteger
  · exact (holdsR.stack _).isInteger

/-- The values taken off, the context has only grown. -/
theorem Pushed.popped (lhs : Pushed ctx mid x) (rhs : Pushed mid ctx' y) :
    Grew ctx { ctx' with valStack := ctx.valStack } :=
  (lhs.grew.trans rhs.grew).withStack ctx.valStack _

theorem globalBinary_gives (op : BinaryOp) (lhs : Pushed ctx mid x) (rhs : Pushed mid ctx' y) :
    (evalI32Binary op x y = none → globalBinary op ctx' = none) ∧
    ∀ v, evalI32Binary op x y = some v → ∃ ctx'', globalBinary op ctx' = some ctx'' ∧
      Pushed ctx ctx'' v := by
  obtain ⟨l, r, between, popR, popL, isL, isR⟩ := popVal_twice lhs rhs
  refine ⟨fun isNone => ?_, fun v isSome => ⟨_, ?_,
    (pushed_pushGlobal _ v).after (lhs.popped rhs) rfl⟩⟩
  · simp [globalBinary, popR, popL, isL, isR, isNone]
  · simp [globalBinary, popR, popL, isL, isR, isSome]

theorem convertBinary_gives (op : BinaryOp) (isOpen : Open ctx bb) (lhs : Pushed ctx mid x)
    (rhs : Pushed mid ctx' y) :
    (evalI32Binary op x y = none → convertBinary op ctx' = none) ∧
    ∀ v, evalI32Binary op x y = some v → ∃ ctx'', convertBinary op ctx' = some ctx'' ∧
      Pushed ctx ctx'' v := by
  obtain ⟨l, r, between, popR, popL, isL, isR⟩ := popVal_twice lhs rhs
  have isOpen' := isOpen.grow (lhs.grew.trans rhs.grew)
  refine ⟨fun isNone => ?_, fun v isSome => ⟨_, ?_,
    (pushed_pushLocal _ v).after (lhs.popped rhs) rfl⟩⟩
  · rw [convertBinary, isOpen'.unlessComplete]
    simp [popR, popL, isL, isR, isNone]
  · rw [convertBinary, isOpen'.unlessComplete]
    simp [popR, popL, isL, isR, isSome]

theorem globalUnary_gives (op : UnaryOp) (arg : Pushed ctx ctx' x) :
    (op.fold overflowChecks x = none → globalUnary overflowChecks op ctx' = none) ∧
    ∀ v, op.fold overflowChecks x = some v →
      ∃ ctx'', globalUnary overflowChecks op ctx' = some ctx'' ∧ Pushed ctx ctx'' v := by
  by_cases isPlus : op = .add
  · subst isPlus
    refine ⟨(nomatch ·), fun v isSome => ⟨ctx', if_pos rfl, ?_⟩⟩
    exact Option.some.inj isSome ▸ arg
  · obtain ⟨val, popped, holds⟩ := arg.popVal
    have isArg := (holds.stack ctx.valStack).isInteger
    refine ⟨fun isNone => ?_, fun v isSome => ⟨_, ?_,
      (pushed_pushGlobal _ v).after (arg.grew.withStack ctx.valStack _) rfl⟩⟩
    · simp [globalUnary, isPlus, popped, isArg, isNone]
    · simp [globalUnary, isPlus, popped, isArg, isSome]

theorem convertUnary_gives (op : UnaryOp) (isOpen : Open ctx bb) (arg : Pushed ctx ctx' x) :
    (op.fold overflowChecks x = none → convertUnary overflowChecks op ctx' = none) ∧
    ∀ v, op.fold overflowChecks x = some v →
      ∃ ctx'', convertUnary overflowChecks op ctx' = some ctx'' ∧ Pushed ctx ctx'' v := by
  rw [convertUnary, (isOpen.grow arg.grew).unlessComplete]
  by_cases isPlus : op = .add
  · subst isPlus
    refine ⟨(nomatch ·), fun v isSome => ⟨ctx', if_pos rfl, ?_⟩⟩
    exact Option.some.inj isSome ▸ arg
  · obtain ⟨val, popped, holds⟩ := arg.popVal
    have isArg := (holds.stack ctx.valStack).isInteger
    refine ⟨fun isNone => ?_, fun v isSome => ⟨_, ?_,
      (pushed_pushLocal _ v).after (arg.grew.withStack ctx.valStack _) rfl⟩⟩
    · simp [isPlus, popped, isArg, isNone]
    · simp [isPlus, popped, isArg, isSome]

/-- The global evaluation of `&&` and `||` evaluates both operands. -/
theorem globalLogical_gives (stable : Stable valid) (combine : Bool → Bool → Bool)
    (lhs : Gives valid first a) (rhs : Gives valid second b) :
    Gives valid (globalLogical combine first second)
      (do some (truth (combine ((← a) != 0) ((← b) != 0)))) := by
  have left : ∀ {x}, a = some x → ∀ ctx, valid ctx → ∃ mid l, first ctx = some mid ∧
      Pushed ctx mid x ∧ mid.popVal = some ({ mid with valStack := ctx.valStack }, l) ∧
      ({ mid with valStack := ctx.valStack } : AstGenContext).instKind l = some (.integer x) ∧
      valid { mid with valStack := ctx.valStack } := by
    intro x isLhs ctx isValid
    obtain ⟨mid, ran, pushed⟩ := lhs.gives x isLhs ctx isValid
    obtain ⟨l, popped, holds⟩ := pushed.popVal
    exact ⟨mid, l, ran, pushed, popped, (holds.stack _).isInteger,
      stable.stack (stable.grow isValid pushed.grew) _⟩
  constructor
  · intro isNone ctx isValid
    cases isLhs : a with
    | none => simp [globalLogical, lhs.fails isLhs ctx isValid]
    | some x =>
      obtain ⟨mid, l, ran, pushed, popped, isL, isValid'⟩ := left isLhs ctx isValid
      cases isRhs : b with
      | none =>
        simp [globalLogical, ran, popped, isL, rhs.fails isRhs _ isValid']
      | some y => simp [isLhs, isRhs] at isNone
  · intro v isSome ctx isValid
    obtain ⟨x, isLhs, more⟩ := Option.bind_eq_some_iff.mp isSome
    obtain ⟨y, isRhs, result⟩ := Option.bind_eq_some_iff.mp more
    obtain rfl := Option.some.inj result
    obtain ⟨mid, l, ran, pushed, popped, isL, isValid'⟩ := left isLhs ctx isValid
    obtain ⟨ctx', ran', pushed'⟩ := rhs.gives y isRhs _ isValid'
    obtain ⟨r, popped', holds⟩ := pushed'.popVal
    refine ⟨_, ?_, (pushed_pushGlobal _ _).after
      ((pushed.grew.withStack ctx.valStack ctx.valStack).trans
        (pushed'.grew.withStack _ ctx.valStack)) rfl⟩
    simp [globalLogical, ran, popped, isL, ran', popped', (holds.stack _).isInteger]

theorem globalLVal_constant {scope : Ident → Option Symbol} (isScope : ctx.globalScope = some scope)
    (isConstant : scope ident = some (.constant val)) :
    globalLVal ident ctx = some (ctx.pushVal val) := by
  rw [globalLVal, isScope, Option.bind_eq_bind, Option.bind_some, isConstant]
  rfl

theorem globalConvert_gives (constant : t.IsConstant names) :
    Gives (GlobalNames names) (t.globalConvert overflowChecks) (t.fold names overflowChecks) := by
  induction t with
  | number num =>
    refine ⟨(nomatch ·), fun v isSome ctx _ => ⟨_, rfl, ?_⟩⟩
    exact Option.some.inj isSome ▸ pushed_pushGlobal ctx num
  | name ident =>
    obtain ⟨v, isName⟩ := Option.isSome_iff_exists.mp constant
    refine ⟨fun isNone => ?_, fun w isSome ctx valid => ?_⟩
    · exact absurd (isName.symm.trans isNone) (Option.some_ne_none v)
    · obtain ⟨scope, isScope, refers⟩ := valid
      obtain ⟨val, isConstant, holds⟩ := refers ident w isSome
      refine ⟨ctx.pushVal val, ?_, (Grew.refl ctx).withStack _ _, val, rfl, holds.stack _⟩
      exact globalLVal_constant isScope isConstant
  | unary op arg ih =>
    exact Gives.unary (ih constant) fun _ pushed => globalUnary_gives op pushed
  | binary op lhs rhs ihLhs ihRhs =>
    exact Gives.binary stable_globalNames (ihLhs constant.2.1) (ihRhs constant.2.2)
      fun _ pushed pushed' => globalBinary_gives op pushed pushed'
  | and lhs rhs ihLhs ihRhs =>
    exact globalLogical_gives stable_globalNames (· && ·) (ihLhs constant.1) (ihRhs constant.2)
  | or lhs rhs ihLhs ihRhs =>
    exact globalLogical_gives stable_globalNames (· || ·) (ihLhs constant.1) (ihRhs constant.2)

/-- A constant is copied to the local arena when it is not there already. -/
theorem convertLVal_constant (isConstant : ctx.getSymbol ident = some (.constant val))
    (holds : Holds ctx val v) : ∃ ctx', convertLVal ident ctx = some ctx' ∧ Pushed ctx ctx' v := by
  cases val with
  | «local» id =>
    refine ⟨ctx.pushVal (.local id), ?_, (Grew.refl ctx).withStack _ _, _, rfl, holds.stack _⟩
    simp [convertLVal, isConstant, AstGenContext.asLocalConstVal]
  | global id =>
    have isInteger : ctx.globals id = some (.integer v) := holds.isInteger
    refine ⟨ctx.pushLocal v, ?_, pushed_pushLocal ctx v⟩
    simp [convertLVal, isConstant, AstGenContext.asLocalConstVal, isInteger,
      AstGenContext.pushLocal]

/-- What is known before the detour is known on it. -/
theorem Detour.holds {rhsBb mergeBb : BasicBlock} {br : Nat} {behind : List Nat}
    (detour : Detour base ctx bb rhsBb mergeBb br behind) (holds : Holds base val v) :
    Holds ctx val v := by
  obtain ⟨known, isInteger⟩ := holds
  cases val with
  | «local» id =>
    exact ⟨known.trans_le detour.nextInst, (detour.insts id known).trans isInteger⟩
  | global id =>
    exact ⟨known.trans_le detour.nextGlobal, (detour.globals id known).trans isInteger⟩

/-- With two constants the detour is undone. -/
theorem mergeLogical_gives (combine : Bool → Bool → Bool) {kind : InstKind} {l : Inst}
    (isOpen : Open base bb) (isLeft : Holds base l x)
    (entering : Pushed (entered base bb kind) ctx y) :
    ∃ ctx', mergeLogical combine l bb base.nextBb (base.nextBb + 1) (base.nextInst + 1) ctx =
      some ctx' ∧ Pushed base ctx' (truth (combine (x != 0) (y != 0))) := by
  have detour := (isOpen.detour kind).grow isOpen.placed entering.grew
  obtain ⟨r, popped, isRight⟩ := entering.popVal
  have isL := ((detour.holds isLeft).stack (entered base bb kind).valStack).isInteger
  have isR := (isRight.stack (entered base bb kind).valStack).isInteger
  have isOpen' := ((isOpen.entered kind).grow entering.grew).stack (entered base bb kind).valStack
  obtain ⟨mid, ret, grew, stack, returned⟩ := isOpen'.setCurrBb_open bb
  have detour' : Detour base mid bb base.nextBb (base.nextBb + 1) (base.nextInst + 1) [] :=
    detour.grow isOpen.placed ((Grew.refl ctx).withStack ctx.valStack _ |>.trans grew)
  have behind := detour'.append isOpen.placed ret
  obtain ⟨_, _, back, left, right, merge, grewBack, stackBack⟩ :=
    (behind.current (some bb)).leave isOpen rfl
  refine ⟨back.pushLocal (truth (combine (x != 0) (y != 0))), ?_,
    (pushed_pushLocal back _).after grewBack (stackBack.trans (stack.trans ?_))⟩
  · simp [mergeLogical, popped, isL, isR, returned, left, right, merge]
  · rfl

/-- A translation that folds `&&` or `||` prepares the branch. -/
structure Prepares
    (prepare : AstGenContext → AstGenContext × (Inst → BasicBlock → BasicBlock → InstKind)) :
    Prop where
  grew : ∀ ctx, Grew ctx (prepare ctx).1
  stack : ∀ ctx, (prepare ctx).1.valStack = ctx.valStack
  terminates : ∀ ctx cond rhsBb mergeBb, ((prepare ctx).2 cond rhsBb mergeBb).isTerminator

/-- The names stand for the same constants in the block of the right operand. -/
theorem LocalNames.enter {base : AstGenContext} {kind : InstKind} (isValid : LocalNames names base)
    (isOpen : Open base bb) : LocalNames names (entered base bb kind) where
  isOpen := ⟨base.nextBb, isOpen.entered kind⟩
  refers := fun ident v isName => by
    obtain ⟨val, isConstant, holds⟩ := isValid.refers ident v isName
    exact ⟨val, isConstant, (isOpen.detour kind).holds holds⟩

theorem convertLogical_gives
    {prepare : AstGenContext → AstGenContext × (Inst → BasicBlock → BasicBlock → InstKind)}
    (prepares : Prepares prepare) (combine : Bool → Bool → Bool)
    (lhs : Gives (LocalNames names) first a) (rhs : Gives (LocalNames names) second b) :
    Gives (LocalNames names) (convertLogical prepare combine first second)
      (do some (truth (combine ((← a) != 0) ((← b) != 0)))) := by
  -- up to the right operand
  have left : ∀ {x}, a = some x → ∀ ctx, LocalNames names ctx → ∃ base bb l kind, Open base bb ∧
      LocalNames names base ∧ Holds base l x ∧ Grew ctx base ∧ base.valStack = ctx.valStack ∧
      kind.isTerminator ∧ convertLogical prepare combine first second ctx =
        (second (entered base bb kind)).bind
          (mergeLogical combine l bb base.nextBb (base.nextBb + 1) (base.nextInst + 1)) := by
    intro x isLhs ctx isValid
    obtain ⟨mid, ran, pushed⟩ := lhs.gives x isLhs ctx isValid
    obtain ⟨l, popped, holds⟩ := pushed.popVal
    obtain ⟨bb, isOpen⟩ := isValid.isOpen
    have grewPrepared := prepares.grew { mid with valStack := ctx.valStack }
    set prepared := prepare { mid with valStack := ctx.valStack } with isPrepared
    have holdsPrepared : Holds prepared.1 l x := grewPrepared.holds (holds.stack _)
    set base := prepared.1.newLocalValue (.integer (truth (x != 0))) with isBase
    have grew : Grew ctx base := ((pushed.grew.withStack ctx.valStack _).trans grewPrepared).trans
      (.newLocalValue _ _)
    have isOpenBase := isOpen.grow grew
    have terminates : (prepared.2 (.local prepared.1.nextInst) base.nextBb
        (base.nextBb + 1)).isTerminator := prepares.terminates _ _ _ _
    refine ⟨base, bb, l, _, isOpenBase, stable_localNames.grow isValid grew,
      (Grew.newLocalValue _ _).holds holdsPrepared, grew, prepares.stack _, terminates, ?_⟩
    have isTruthy : prepared.1.truthyLocal l = some (base, .local prepared.1.nextInst) := by
      simp [AstGenContext.truthyLocal, holdsPrepared.isInteger, isBase]
    have isLeft := isOpenBase.addBlock 0
    have isBoth := isLeft.addBlock 1
    simp only [convertLogical, ran, popped, Option.bind_eq_bind, Option.bind_some, ← isPrepared,
      isTruthy, isOpenBase.registerBb 0]
    rw [isLeft.registerBb 1]
    simp only [Option.bind_some]
    rw [isBoth.pushInst, show (withBlock base 0).nextBb = base.nextBb + 1 from rfl]
    simp only [Option.bind_some]
    rw [isBoth.setCurrBb terminates]
    rfl
  constructor
  · intro isNone ctx isValid
    cases isLhs : a with
    | none => simp [convertLogical, lhs.fails isLhs ctx isValid]
    | some x =>
      obtain ⟨base, bb, l, kind, isOpen, isValid', holds, grew, stack, terminates, ran⟩ :=
        left isLhs ctx isValid
      cases isRhs : b with
      | none => rw [ran, rhs.fails isRhs _ (isValid'.enter isOpen), Option.bind_none]
      | some y => simp [isLhs, isRhs] at isNone
  · intro v isSome ctx isValid
    obtain ⟨x, isLhs, more⟩ := Option.bind_eq_some_iff.mp isSome
    obtain ⟨y, isRhs, result⟩ := Option.bind_eq_some_iff.mp more
    obtain rfl := Option.some.inj result
    obtain ⟨base, bb, l, kind, isOpen, isValid', holds, grew, stack, terminates, ran⟩ :=
      left isLhs ctx isValid
    obtain ⟨inside, ran', entering⟩ := rhs.gives y isRhs _ (isValid'.enter isOpen)
    obtain ⟨ctx', merged, pushed⟩ := mergeLogical_gives combine isOpen holds entering
    exact ⟨ctx', by rw [ran, ran', Option.bind_some, merged], pushed.after grew stack⟩

theorem prepares_or : Prepares fun ctx =>
    (ctx, fun cond rhsBb mergeBb => .branch cond mergeBb [cond] rhsBb []) :=
  ⟨.refl, fun _ => rfl, fun _ _ _ _ => rfl⟩

theorem prepares_and : Prepares fun ctx => (ctx.newLocalValue (.integer 0),
    fun cond rhsBb mergeBb => .branch cond rhsBb [] mergeBb [.local ctx.nextInst]) :=
  ⟨fun ctx => .newLocalValue ctx _, fun _ => rfl, fun _ _ _ _ => rfl⟩

/-- In a block that is not complete the question is answered. -/
theorem Gives.unlessComplete {result : Option (BitVec 32)}
    (gives : Gives (LocalNames names) first result) :
    Gives (LocalNames names) (unlessComplete first) result := by
  constructor
  · intro isNone ctx isValid
    obtain ⟨bb, isOpen⟩ := isValid.isOpen
    rw [isOpen.unlessComplete, gives.fails isNone ctx isValid]
  · intro v isSome ctx isValid
    obtain ⟨bb, isOpen⟩ := isValid.isOpen
    rw [isOpen.unlessComplete]
    exact gives.gives v isSome ctx isValid

theorem convert_gives (constant : t.IsConstant names) :
    Gives (LocalNames names) (t.convert overflowChecks) (t.fold names overflowChecks) := by
  induction t with
  | number num =>
    refine Gives.unlessComplete ⟨(nomatch ·), fun v isSome ctx _ => ⟨_, rfl, ?_⟩⟩
    exact Option.some.inj isSome ▸ pushed_pushLocal ctx num
  | name ident =>
    obtain ⟨v, isName⟩ := Option.isSome_iff_exists.mp constant
    refine Gives.unlessComplete ⟨fun isNone => ?_, fun w isSome ctx isValid => ?_⟩
    · exact absurd (isName.symm.trans isNone) (Option.some_ne_none v)
    · obtain ⟨val, isConstant, holds⟩ := isValid.refers ident w isSome
      exact convertLVal_constant isConstant holds
  | unary op arg ih =>
    refine Gives.unlessComplete (Gives.unary (ih constant) fun isValid pushed => ?_)
    obtain ⟨bb, isOpen⟩ := isValid.isOpen
    exact convertUnary_gives op isOpen pushed
  | binary op lhs rhs ihLhs ihRhs =>
    refine Gives.unlessComplete (Gives.binary stable_localNames (ihLhs constant.2.1)
      (ihRhs constant.2.2) fun isValid pushed pushed' => ?_)
    obtain ⟨bb, isOpen⟩ := isValid.isOpen
    exact convertBinary_gives op isOpen pushed pushed'
  | and lhs rhs ihLhs ihRhs =>
    exact (convertLogical_gives prepares_and (· && ·) (ihLhs constant.1)
      (ihRhs constant.2)).unlessComplete
  | or lhs rhs ihLhs ihRhs =>
    exact (convertLogical_gives prepares_or (· || ·) (ihLhs constant.1)
      (ihRhs constant.2)).unlessComplete

end Operators

/-! ## Constant expressions -/

/-- The translation leaves a value on the stack, an integer. -/
def Yields (translate : Translation) (ctx : AstGenContext) (v : BitVec 32) : Prop :=
  ∃ ctx' val, translate ctx = some ctx' ∧ ctx'.valStack = val :: ctx.valStack ∧
    ctx'.instKind val = some (.integer v)

theorem Gives.yields_iff {valid : AstGenContext → Prop} {translate : Translation}
    {result : Option (BitVec 32)} (gives : Gives valid translate result) (isValid : valid ctx) :
    Yields translate ctx v ↔ result = some v := by
  constructor
  · rintro ⟨ctx', val, ran, isStack, isInteger⟩
    cases isResult : result with
    | none => rw [gives.fails isResult ctx isValid] at ran; cases ran
    | some w =>
      obtain ⟨ctx'', ran', -, val', isStack', holds⟩ := gives.gives w isResult ctx isValid
      obtain rfl := Option.some.inj (ran.symm.trans ran')
      obtain rfl := (List.cons.inj (isStack.symm.trans isStack')).1
      have same := Option.some.inj (isInteger.symm.trans holds.isInteger)
      exact congrArg some (InstKind.integer.inj same).symm
  · intro isResult
    obtain ⟨ctx', ran, -, val, isStack, holds⟩ := gives.gives v isResult ctx isValid
    exact ⟨ctx', val, ran, isStack, holds.isInteger⟩

/-- Both evaluations of a constant expression with a value give that value exactly when nothing
fails in its operands, those included that `&&` and `||` pass over. -/
theorem constantExpression_agrees (overflowChecks : Bool) (e : Exp)
    (names : Ident → Option (BitVec 32)) (global «local» : AstGenContext) (v : BitVec 32)
    (constant : e.tree.IsConstant names) (isValue : e.tree.eval names = some v)
    (globalNames : GlobalNames names global) (localNames : LocalNames names «local») :
    Yields (e.globalConvert overflowChecks) global v ∧ Yields (e.convert overflowChecks) «local» v ↔
      e.tree.NothingFails names overflowChecks := by
  rw [Exp.globalConvert_tree, Exp.convert_tree,
    (globalConvert_gives constant).yields_iff globalNames,
    (convert_gives constant).yields_iff localNames, and_self]
  constructor
  · exact Tree.nothingFails_of_fold constant
  · intro fine
    obtain ⟨w, folded, isValue'⟩ := Tree.fold_of_nothingFails constant fine
    obtain rfl := Option.some.inj (isValue'.symm.trans isValue)
    exact folded

/-- The first block of a function, with nothing translated yet. -/
def functionStart : AstGenContext where
  retTy := .int32
  insts := fun _ => none
  nextInst := 0
  bbParams := fun _ => []
  nextBb := 1
  layout := ⟨[0], fun _ => [], fun _ => none⟩
  globals := fun _ => none
  nextGlobal := 0
  valStack := []
  currBb := some 0
  symbolTable := [fun _ => none, fun _ => none]

theorem globalNames_functionStart : GlobalNames (fun _ => none) functionStart :=
  ⟨fun _ => none, rfl, fun _ _ isName => nomatch isName⟩

theorem localNames_functionStart : LocalNames (fun _ => none) functionStart where
  isOpen := ⟨0, rfl, List.mem_cons_self, rfl, by simp [functionStart], by simp [functionStart],
    by simp [functionStart]⟩
  refers := fun _ _ isName => nomatch isName

/-- `0 && 1 / divisor` -/
def guardedDivision (divisor : BitVec 32) : Exp :=
  .lOrExp (.lAndExp (.comp
    (.eqExp (.relExp (.addExp (.mulExp (.unaryExp (.primaryExp (.number 0)))))))
    (.relExp (.addExp (.mulExp (.comp (.unaryExp (.primaryExp (.number 1))) .div
      (.primaryExp (.number divisor))))))))

/-- With a divisor that is not zero both evaluations give `0`. -/
theorem constantExpression_agrees_guarded :
    Yields ((guardedDivision 2).globalConvert true) functionStart 0 ∧
      Yields ((guardedDivision 2).convert true) functionStart 0 :=
  (constantExpression_agrees true (guardedDivision 2) (fun _ => none) functionStart functionStart 0
    ⟨trivial, by decide, trivial, trivial⟩ rfl globalNames_functionStart
      localNames_functionStart).mpr
    ⟨trivial, trivial, trivial, fun _ isZero => absurd isZero (by decide)⟩

/-- The value of `0 && 1 / 0` is `0`, but neither evaluation succeeds. -/
theorem guardedDivision_panics : (guardedDivision 0).tree.IsConstant (fun _ => none) ∧
    (guardedDivision 0).tree.eval (fun _ => none) = some 0 ∧
    GlobalNames (fun _ => none) functionStart ∧ LocalNames (fun _ => none) functionStart ∧
    ¬ Yields ((guardedDivision 0).globalConvert false) functionStart 0 ∧
    ¬ Yields ((guardedDivision 0).convert false) functionStart 0 := by
  have constant : (guardedDivision 0).tree.IsConstant fun _ => none :=
    ⟨trivial, by decide, trivial, trivial⟩
  refine ⟨constant, rfl, globalNames_functionStart, localNames_functionStart, ?_, ?_⟩
  · rw [Exp.globalConvert_tree, (globalConvert_gives constant).yields_iff globalNames_functionStart]
    exact nofun
  · rw [Exp.convert_tree, (convert_gives constant).yields_iff localNames_functionStart]
    exact nofun

end AnonCompiler.Frontend.AstGen
