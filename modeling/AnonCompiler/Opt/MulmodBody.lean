import AnonCompiler.Opt.MulmodShape
import AnonCompiler.Ir.WellFormed
import AnonCompiler.Lib.Word

/-!
# What an accepted body computes

Inside one activation of an accepted function every value is an expression over
the two arguments and the result of the recursive call (`evalTree`), and the
control flow is decided by the second argument alone (`Leads`).  An activation
that ends therefore returns the expression of the return its argument leads to,
provided its recursive calls return what they should (`Activation.returns`).
-/

set_option autoImplicit false

namespace AnonCompiler.Opt.Mulmod

open Ir Lib

/-! ## Expressions -/

/-- The value of an expression over given leaves. -/
def evalTree (F : FunctionData) (leaf : Inst → Option (BitVec 32)) :
    Nat → Inst → Option (BitVec 32)
  | 0, inst => (leaf inst).or (constI32 F inst)
  | depth + 1, inst =>
    match leaf inst with
    | some value => some value
    | none =>
      match F.kind inst with
      | some (.integer value) => some value
      | some (.binary op l r) =>
        (evalTree F leaf depth l).bind fun x =>
          (evalTree F leaf depth r).bind fun y => foldBinary op x y
      | _ => none

/-- The leaves of the conditions: the second argument. -/
def argLeaf (b : Inst) (y : BitVec 32) : Inst → Option (BitVec 32) :=
  fun inst => if inst = b then some y else none

/-- The leaves of all values: the arguments and, where it is known, the result of the
recursive call. -/
def bodyLeaf (s : Shape) (x y : BitVec 32) (result : Option (BitVec 32)) :
    Inst → Option (BitVec 32) :=
  fun inst =>
    if inst = s.b then some y else if inst = s.a then some x
    else if inst = s.selfCall then result else none

section Trees

variable {F : FunctionData} {f : Function} {s : Shape}

variable {inst l r : Inst} {op : BinaryOp} {value : BitVec 32} {leaf : Inst → Option (BitVec 32)}
  {depth : Nat}

theorem kind_of_constI32 (h : constI32 F inst = some value) :
    F.kind inst = some (.integer value) := by
  unfold constI32 at h
  split at h
  · next kind =>
      cases h
      exact kind
  · cases h

theorem evalTree_leaf {leaf : Inst → Option (BitVec 32)} {depth : Nat} {inst : Inst}
    {value : BitVec 32} (h : leaf inst = some value) : evalTree F leaf depth inst = some value := by
  cases depth with
  | zero => simp [evalTree, h]
  | succ depth => simp [evalTree, h]

end Trees

/-! ## Control flow -/

/-- With the second argument `y`, control goes from the instructions `rest` to
the return `ret`. -/
inductive Leads (F : FunctionData) (b : Inst) (y : BitVec 32) : List Inst → Inst → Prop where
  | skip {inst ret : Inst} {rest : List Inst} {kind : InstKind} (h : F.kind inst = some kind)
      (inner : kind.isTerminator = false) (later : Leads F b y rest ret) :
      Leads F b y (inst :: rest) ret
  | ret {inst : Inst} {rest : List Inst} {value : Option Inst}
      (h : F.kind inst = some (.ret value)) : Leads F b y (inst :: rest) inst
  | jump {inst ret : Inst} {rest insts args : List Inst} {target : BasicBlock}
      (h : F.kind inst = some (.jump target args)) (block : F.blockInsts target = some insts)
      (later : Leads F b y insts ret) : Leads F b y (inst :: rest) ret
  | branch {inst ret cond : Inst} {rest insts tArgs fArgs : List Inst} {t e : BasicBlock}
      {c : BitVec 32} (h : F.kind inst = some (.branch cond t tArgs e fArgs))
      (decided : evalTree F (argLeaf b y) 2 cond = some c)
      (block : F.blockInsts (if c ≠ 0 then t else e) = some insts)
      (later : Leads F b y insts ret) : Leads F b y (inst :: rest) ret

/-- The value documented to be returned for the second argument `y`. -/
def Documented (F : FunctionData) (s : Shape) (y : BitVec 32) (value : Inst) : Prop :=
  if y = 0 then constI32 F value = some 0
  else if y = 1 then ∃ k, binaryOf F value = some (.rem, s.a, k) ∧ constI32 F k = some s.modulus
  else if y.toInt % 2 = 1 ∧ 0 ≤ y.toInt then
    ∃ k, binaryOf F value = some (.rem, s.oddAdd, k) ∧ constI32 F k = some s.modulus
  else value = s.double

/-- For the second argument `y` the branches lead to the return of the documented value. -/
def Wired (F : FunctionData) (s : Shape) (y : BitVec 32) : Prop :=
  ∃ entry insts ret value, F.entryBlock = some entry ∧ F.blockInsts entry = some insts ∧
    Leads F s.b y insts ret ∧ F.kind ret = some (.ret (some value)) ∧ Documented F s y value

/-! ## One activation -/

section Activation

variable {World : Type} {S : Setting World} {F : FunctionData} {f : Function} {s : Shape}

/-- Leaves are values an activation gets from outside: parameters and calls, of
type `i32`. -/
def LeafOk (F : FunctionData) (leaf : Inst → Option (BitVec 32)) : Prop :=
  ∀ inst v, leaf inst = some v → ∃ data, F.insts inst = some data ∧ data.ty = .int32 ∧
    ((∃ index, data.kind = .blockArgRef index) ∨ ∃ callee args, data.kind = .call callee args)

/-- The environment agrees with the expressions. -/
def Holds (F : FunctionData) (leaf : Inst → Option (BitVec 32)) (env : Env) : Prop :=
  ∀ depth inst c v, evalTree F leaf depth inst = some c → env inst = some v → v = .int c

variable {inst ret : Inst} {kind : InstKind} {leaf : Inst → Option (BitVec 32)} {depth : Nat}
  {c y x : BitVec 32} {data : InstData} {env : Env} {v : Val} {result : Option (BitVec 32)}
  {a : Activation} {callee : Function} {args : List Inst}

theorem kind_eq_some (h : F.kind inst = some kind) :
    ∃ data, F.insts inst = some data ∧ data.kind = kind := by
  simpa [FunctionData.kind] using h

/-- An expression is an instruction of the arena, of type `i32`. -/
theorem evalTree_ty (wellFormed : F.WellFormed) {P : Program} (typed : F.WellTyped P)
    (leafOk : LeafOk F leaf) (h : evalTree F leaf depth inst = some c) :
    ∃ data, F.insts inst = some data ∧ data.ty = .int32 := by
  induction depth generalizing inst c with
  | zero =>
    simp only [evalTree, Option.or_eq_some_iff] at h
    rcases h with isLeaf | ⟨-, isConst⟩
    · obtain ⟨data, hdata, ty, -⟩ := leafOk _ _ isLeaf
      exact ⟨data, hdata, ty⟩
    · obtain ⟨⟨ty, kind⟩, hdata, rfl⟩ := kind_eq_some (kind_of_constI32 isConst)
      exact ⟨_, hdata, typed.integer hdata⟩
  | succ depth ih =>
    simp only [evalTree] at h
    cases isLeaf : leaf inst with
    | some value =>
      obtain ⟨data, hdata, ty, -⟩ := leafOk _ _ isLeaf
      exact ⟨data, hdata, ty⟩
    | none =>
      simp only [isLeaf] at h
      split at h
      · next value kind =>
          obtain ⟨⟨ty, kind⟩, hdata, rfl⟩ := kind_eq_some kind
          exact ⟨_, hdata, typed.integer hdata⟩
      · next op l r kind =>
          simp only [Option.bind_eq_some_iff] at h
          obtain ⟨x, hx, -⟩ := h
          obtain ⟨⟨ty, kind⟩, hdata, rfl⟩ := kind_eq_some kind
          obtain ⟨operand, lhsTy, -, rfl⟩ := typed.binary hdata
          obtain ⟨lhs, hlhs, lhsInt⟩ := ih hx
          rw [Program.typeOf, wellFormed.instData_eq hlhs, Option.map_some, lhsInt] at lhsTy
          obtain rfl := Option.some.inj lhsTy
          exact ⟨_, hdata, by simp⟩
      · cases h

theorem ctx_instData (wellFormed : F.WellFormed) (h : F.insts inst = some data) :
    S.ctx.instData F inst = some data := by
  simp [Ctx.instData, wellFormed.isLocal (by simp [h] : F.insts inst ≠ none), h]

/-- The value of an operand that is an expression. -/
theorem operand_eq (wellFormed : F.WellFormed) (typed : F.WellTyped S.program)
    (leafOk : LeafOk F leaf) (holds : Holds F leaf env) (tree : evalTree F leaf depth inst = some c)
    (h : S.ctx.operand F env inst = some v) : v = .int c := by
  obtain ⟨data, hdata, -⟩ := evalTree_ty wellFormed typed leafOk tree
  simp only [Ctx.operand, ctx_instData wellFormed hdata] at h
  split at h
  · next isConst =>
      have notLeaf : leaf inst = none := by
        cases isLeaf : leaf inst with
        | none => rfl
        | some value =>
          obtain ⟨data', hdata', -, kinds⟩ := leafOk _ _ isLeaf
          obtain rfl := Option.some.inj (hdata.symm.trans hdata')
          rcases kinds with ⟨index, kind⟩ | ⟨callee, args, kind⟩ <;>
            simp [kind, Ctx.isConst] at isConst
      have kindEq : F.kind inst = some data.kind := by simp [FunctionData.kind, hdata]
      have value : F.kind inst = some (.integer c) := by
        cases depth with
        | zero =>
          simp only [evalTree, notLeaf, Option.none_or] at tree
          exact kind_of_constI32 tree
        | succ depth =>
          simp only [evalTree, notLeaf] at tree
          split at tree
          · next kind => rw [kind, ← Option.some.inj tree]
          · next kind =>
              simp [Option.some.inj (kindEq.symm.trans kind), Ctx.isConst] at isConst
          · cases tree
      have := Option.some.inj (kindEq.symm.trans value)
      simpa [Ctx.constVal, this, eq_comm] using h
  · exact holds _ _ _ _ tree h

/-- Executing an expression keeps the agreement. -/
theorem Holds.update (holds : Holds F leaf env)
    (agrees : ∀ {depth c}, evalTree F leaf depth inst = some c → v = .int c) :
    Holds F leaf (Function.update env inst (some v)) := by
  intro depth i c w tree value
  by_cases same : i = inst
  · subst same
    rw [Function.update_self] at value
    obtain rfl := Option.some.inj value
    exact agrees tree
  · rw [Function.update_of_ne same] at value
    exact holds _ _ _ _ tree value

/-- The value a binary instruction defines is its expression. -/
theorem binary_agrees (wellFormed : F.WellFormed) (typed : F.WellTyped S.program)
    (leafOk : LeafOk F leaf) (holds : Holds F leaf env) {op : BinaryOp} {l r : Inst}
    (hdata : F.insts inst = some data) (kind : data.kind = .binary op l r)
    (h : S.ctx.pureVal F env data = some v) (tree : evalTree F leaf depth inst = some c) :
    v.fit data.ty = .int c := by
  have ty : data.ty = .int32 := by
    obtain ⟨data', hdata', ty⟩ := evalTree_ty wellFormed typed leafOk tree
    rwa [Option.some.inj (hdata.symm.trans hdata')]
  have notLeaf : leaf inst = none := by
    cases isLeaf : leaf inst with
    | none => rfl
    | some value =>
      obtain ⟨data', hdata', -, kinds⟩ := leafOk _ _ isLeaf
      obtain rfl := Option.some.inj (hdata.symm.trans hdata')
      rcases kinds with ⟨index, kind'⟩ | ⟨callee, args, kind'⟩ <;> simp [kind] at kind'
  have kindEq : F.kind inst = some (.binary op l r) := by simp [FunctionData.kind, hdata, kind]
  simp only [Ctx.pureVal, kind, Option.bind_eq_bind, Option.bind_eq_some_iff] at h
  obtain ⟨lv, hl, rv, hr, result⟩ := h
  cases depth with
  | zero =>
    simp only [evalTree, notLeaf, Option.none_or] at tree
    simp [kind_of_constI32 tree] at kindEq
  | succ depth =>
    rw [evalTree, notLeaf] at tree
    simp only [kindEq, Option.bind_eq_some_iff] at tree
    obtain ⟨x, hx, y, hy, folded⟩ := tree
    obtain rfl := operand_eq wellFormed typed leafOk holds hx hl
    obtain rfl := operand_eq wellFormed typed leafOk holds hy hr
    have folded' : v = .int c := by
      rw [binaryVal_int, folded] at result
      exact (Option.some.inj result).symm
    rw [folded', ty]
    rfl

/-- What is known of an activation of an accepted function on the arguments `x`
and `y`: `result` is what the recursive call returns, and `ret` the return
control leads to. -/
structure Good (F : FunctionData) (f : Function) (s : Shape) (x y : BitVec 32)
    (result : Option (BitVec 32)) (ret : Inst) (a : Activation) : Prop where
  func : a.func = f
  holds : Holds F (bodyLeaf s x y result) a.env
  inLayout : ∀ inst ∈ a.rest, inst ∈ F.layoutInsts
  leads : Leads F s.b y a.rest ret

theorem Leads.tail {b inst ret : Inst} {y : BitVec 32} {rest : List Inst} {kind : InstKind}
    (leads : Leads F b y (inst :: rest) ret) (h : F.kind inst = some kind)
    (inner : kind.isTerminator = false) : Leads F b y rest ret := by
  cases leads with
  | skip _ _ later => exact later
  | ret h' | jump h' | branch h' =>
    obtain rfl := Option.some.inj (h.symm.trans h')
    simp [InstKind.isTerminator] at inner

/-- A defined value keeps what is known of the activation. -/
theorem Good.define {tail : List Inst} (good : Good F f s x y result ret a)
    (rest : a.rest = inst :: tail) (h : F.kind inst = some kind) (inner : kind.isTerminator = false)
    (agrees : ∀ {depth c}, evalTree F (bodyLeaf s x y result) depth inst = some c → v = .int c) :
    Good F f s x y result ret (a.define inst v) where
  func := good.func
  holds := good.holds.update agrees
  inLayout := by
    intro i member
    simp only [Activation.define, rest, List.tail_cons] at member
    exact good.inLayout i (by simp [rest, member])
  leads := by
    have leads := good.leads
    rw [rest] at leads
    simpa [Activation.define, rest] using leads.tail h inner

/-- Entering a block without arguments. -/
theorem Good.enterBlock {insts : List Inst} {a' : Activation} {target : BasicBlock}
    (good : Good F f s x y result ret a) (entered : a.enterBlock F target [] = some a')
    (block : F.blockInsts target = some insts) (leads : Leads F s.b y insts ret) :
    Good F f s x y result ret a' := by
  unfold Activation.enterBlock at entered
  split at entered
  · next count =>
      have noParams : F.blockParams target = [] :=
        List.eq_nil_of_length_eq_zero (by simpa using count.symm)
      rw [block, noParams] at entered
      obtain rfl := Option.some.inj entered
      exact ⟨good.func, good.holds,
        fun inst member => FunctionData.mem_layoutInsts block member, leads⟩
  · cases entered

/-- A call has a value only as a leaf. -/
theorem leaf_of_call (kind : F.kind inst = some (.call callee args))
    (tree : evalTree F leaf depth inst = some c) : leaf inst = some c := by
  cases depth with
  | zero =>
    simp only [evalTree, Option.or_eq_some_iff] at tree
    rcases tree with isLeaf | ⟨-, isConst⟩
    · exact isLeaf
    · simp [kind_of_constI32 isConst] at kind
  | succ depth =>
    rw [evalTree] at tree
    cases isLeaf : leaf inst with
    | some value => rwa [isLeaf] at tree
    | none => simp [isLeaf, kind] at tree

section

variable (matched : Matched F f s) (wellFormed : F.WellFormed)
include matched wellFormed

theorem param_kind {param : Inst} (member : param ∈ F.params) :
    ∃ index, F.kind param = some (.blockArgRef index) := by
  obtain ⟨entry, hentry⟩ := Option.isSome_iff_exists.mp matched.entry
  rw [wellFormed.params_entry hentry] at member
  obtain ⟨data, index, hdata, kind⟩ := wellFormed.blockParam member
  exact ⟨index, by simp [FunctionData.kind, hdata, kind]⟩

theorem params_ne : s.a ≠ s.b := by
  obtain ⟨entry, hentry⟩ := Option.isSome_iff_exists.mp matched.entry
  have nodup := wellFormed.blockParams_nodup entry
  rw [← wellFormed.params_entry hentry, matched.params] at nodup
  simpa using nodup

/-- The only calls with a value are the recursive one: another call of the
function in its body has no leaf. -/
theorem selfCall_of_tree (kind : F.kind inst = some (.call callee args))
    (tree : evalTree F (bodyLeaf s x y result) depth inst = some c) :
    inst = s.selfCall ∧ result = some c := by
  have isLeaf := leaf_of_call kind tree
  have notParam : inst ∉ F.params := by
    intro member
    obtain ⟨index, kind'⟩ := param_kind matched wellFormed member
    simp [kind] at kind'
  rw [matched.params] at notParam
  simp only [List.mem_cons, List.not_mem_nil, or_false, not_or] at notParam
  simp only [bodyLeaf, if_neg notParam.1, if_neg notParam.2] at isLeaf
  split at isLeaf
  · next same => exact ⟨same, isLeaf⟩
  · cases isLeaf

end

/-- An activation that ends returns the value of the return control leads to,
when the recursive calls on `x` and the half of `y` return `result`. -/
theorem Good.returns (data : S.program.funcData f = some F) (matched : Matched F f s)
    (wellFormed : F.WellFormed) (typed : F.WellTyped S.program) {h : BitVec 32}
    (leafOk : LeafOk F (bodyLeaf s x y result))
    (half : result ≠ none → evalTree F (bodyLeaf s x y result) 3 s.half = some h)
    (conditions : ∀ {cond c}, evalTree F (argLeaf s.b y) 2 cond = some c →
    evalTree F (bodyLeaf s x y result) 2 cond = some c)
    {returned : Inst} (isReturn : F.kind ret = some (.ret (some returned))) {n : Nat}
    (calls : ∀ r, result = some r →
    ∀ k < n, ∀ {frame c σ v σ'}, Activation.start F f frame [.int x, .int h] = some c →
      S.Completes k c σ v σ' → v = some (.int r))
    (good : Good F f s x y result ret a) {σ σ' : Shared World} {value : Option Val}
    (completes : S.Completes n a σ value σ') :
    ∃ w, value = some w ∧
      ∀ {depth c}, evalTree F (bodyLeaf s x y result) depth returned = some c → w = .int c := by
  induction n using Nat.strongRecOn generalizing a σ with
  | ind n ih =>
    have later : ∀ {k a' σ₁}, k < n → Good F f s x y result ret a' →
        S.Completes k a' σ₁ value σ' → ∃ w, value = some w ∧
          ∀ {depth c}, evalTree F (bodyLeaf s x y result) depth returned = some c →
            w = .int c :=
      fun lt good' completes' =>
        ih _ lt (fun r isResult k small => calls r isResult k (Nat.lt_trans small lt)) good'
          completes'
    obtain ⟨m, σ₁, moved, rest⟩ := completes.cases
    have leads := good.leads
    cases restEq : a.rest with
    | nil =>
      rw [restEq] at leads
      cases leads
    | cons inst tail =>
      rw [restEq] at leads
      simp only [Setting.move, good.func, data, restEq] at moved
      cases matched.kinds inst (good.inLayout inst (by simp [restEq])) with
      | @call args kind =>
        obtain ⟨d, hd, dk⟩ := kind_eq_some kind
        simp only [exec, hd, dk] at moved
        cases evaluated : S.ctx.operands F a.env args with
        | none => simp [evaluated] at moved
        | some vals =>
          have defined : F.layout ≠ [] := by
            intro empty
            simpa [FunctionData.entryBlock, empty] using matched.entry
          simp only [evaluated, Option.map_some, Setting.moveCall, data, if_neg defined,
            Option.map_eq_some_iff, invoke] at moved
          obtain ⟨-, ⟨c, started, rfl⟩, same⟩ := moved
          cases same
          obtain ⟨k, v, σ₂, F', a', l, inner, lt, data', resumed, outer, lt'⟩ := rest
          rw [good.func] at data'
          obtain rfl := Option.some.inj (data.symm.trans data')
          have agrees : ∀ {depth c},
              evalTree F (bodyLeaf s x y result) depth inst = some c →
                (v.getD .undef).fit d.ty = .int c := by
            intro depth r tree
            obtain ⟨rfl, isResult⟩ := selfCall_of_tree matched wellFormed kind tree
            obtain ⟨d', hd', ty⟩ := evalTree_ty wellFormed typed leafOk tree
            obtain rfl := Option.some.inj (hd.symm.trans hd')
            obtain ⟨-, rfl⟩ := InstKind.call.inj
              (Option.some.inj (kind.symm.trans matched.call))
            simp only [Ctx.operands, List.mapM_cons, List.mapM_nil, Option.bind_eq_bind,
              Option.bind_eq_some_iff, Option.pure_def, Option.some.injEq] at evaluated
            obtain ⟨va, ha, _, ⟨vh, hh, _, rfl, rfl⟩, rfl⟩ := evaluated
            have aLeaf : bodyLeaf s x y result s.a = some x := by
              simp [bodyLeaf, params_ne matched wellFormed]
            obtain rfl := operand_eq wellFormed typed leafOk good.holds
              (@evalTree_leaf F _ 0 _ _ aLeaf) ha
            obtain rfl := operand_eq wellFormed typed leafOk good.holds
              (half (by simp [isResult])) hh
            obtain rfl := calls r isResult k lt started inner
            rw [ty]
            rfl
          simp only [Activation.resume, restEq, hd] at resumed
          obtain rfl := Option.some.inj resumed
          exact later lt' (good.define restEq kind rfl agrees) outer
      | @ret value' kind =>
        cases leads with
        | skip kind' inner => simp [Option.some.inj (kind'.symm.trans kind),
          InstKind.isTerminator] at inner
        | jump kind' => simp [kind] at kind'
        | branch kind' => simp [kind] at kind'
        | ret kind' =>
          obtain ⟨d, hd, dk⟩ := kind_eq_some isReturn
          simp only [exec, hd, dk] at moved
          cases evaluated : S.ctx.operand F a.env returned with
          | none => simp [evaluated] at moved
          | some w =>
            simp only [evaluated, Option.map_some, Option.some.injEq] at moved
            cases moved
            obtain ⟨rfl, -⟩ := rest
            exact ⟨w, rfl, fun tree =>
              operand_eq wellFormed typed leafOk good.holds tree evaluated⟩
      | @branch cond t e kind =>
        cases leads with
        | skip kind' inner => simp [Option.some.inj (kind'.symm.trans kind),
          InstKind.isTerminator] at inner
        | ret kind' | jump kind' => simp [kind] at kind'
        | @branch _ _ _ _ insts _ _ _ _ c kind' decided block leads' =>
          obtain ⟨rfl, rfl, rfl, rfl, rfl⟩ :=
            InstKind.branch.inj (Option.some.inj (kind.symm.trans kind'))
          obtain ⟨d, hd, dk⟩ := kind_eq_some kind
          simp only [exec, hd, dk] at moved
          cases evaluated : S.ctx.operand F a.env cond with
          | none => simp [evaluated] at moved
          | some v =>
            obtain rfl := operand_eq wellFormed typed leafOk good.holds
              (conditions decided) evaluated
            have jumped : (a.enterBlock F (if c ≠ 0 then t else e) []).map
                (fun a' => (Move.stay a', σ)) = some (m, σ₁) := by
              simp only [evaluated, Ctx.operands, List.mapM_nil, Option.pure_def, Option.map_some,
                ← apply_ite some, ← apply_ite (Effect.goto · [])] at moved
              by_cases nonzero : c ≠ 0
              · rw [if_pos nonzero] at moved ⊢
                exact moved
              · rw [if_neg nonzero] at moved ⊢
                exact moved
            obtain ⟨a', entered, same⟩ := Option.map_eq_some_iff.mp jumped
            cases same
            obtain ⟨k, lt, completes'⟩ := rest
            exact later lt (good.enterBlock entered block leads') completes'
      | @jump target kind =>
        cases leads with
        | skip kind' inner => simp [Option.some.inj (kind'.symm.trans kind),
          InstKind.isTerminator] at inner
        | ret kind' | branch kind' => simp [kind] at kind'
        | jump kind' block leads' =>
          obtain ⟨rfl, rfl⟩ := InstKind.jump.inj (Option.some.inj (kind.symm.trans kind'))
          obtain ⟨d, hd, dk⟩ := kind_eq_some kind
          simp only [exec, hd, dk, Ctx.operands, List.mapM_nil, Option.pure_def, Option.map_some,
            Option.map_eq_some_iff] at moved
          obtain ⟨a', entered, same⟩ := moved
          cases same
          obtain ⟨k, lt, completes'⟩ := rest
          exact later lt (good.enterBlock entered block leads') completes'
      | @binary op l r kind =>
        obtain ⟨d, hd, dk⟩ := kind_eq_some kind
        simp only [exec, hd, dk] at moved
        cases evaluated : S.ctx.pureVal F a.env d with
        | none => simp [evaluated] at moved
        | some v =>
          simp only [evaluated, Option.map_some, Option.some.injEq] at moved
          cases moved
          obtain ⟨k, lt, completes'⟩ := rest
          exact later lt (good.define restEq kind rfl
            (binary_agrees wellFormed typed leafOk good.holds hd dk evaluated)) completes'
      | @integer c kind | @blockArgRef index kind =>
        obtain ⟨d, hd, dk⟩ := kind_eq_some kind
        simp [exec, hd, dk, Ctx.pureVal] at moved

end Activation

end AnonCompiler.Opt.Mulmod
