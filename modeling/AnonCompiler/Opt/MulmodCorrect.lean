import AnonCompiler.Opt.MulmodClosedForm

/-!
# The rewritten function returns the same

The new body returns the closed form for all arguments, so the pass preserves
the result of every call on which the recursion computes the closed form, and of
every call in a program that has the helper as a function of its own, where nothing
is rewritten (`run_preserves`).  On other inputs it does not: an addition that wraps
is enough (`run_changes_result`).
-/

set_option autoImplicit false

namespace AnonCompiler.Opt.Mulmod

open Ir Lib

/-! ## Clearing the old body -/

section Clear

variable {F G : FunctionData} {entry : BasicBlock}

/-- Nothing has changed but the instructions of the layout. -/
structure Cleared (F G : FunctionData) : Prop where
  insts : ∀ {inst}, inst ∉ F.layoutInsts → G.insts inst = F.insts inst
  nextInst : G.nextInst = F.nextInst
  nextBlock : G.nextBlock = F.nextBlock
  blockParams : G.blockParams = F.blockParams
  within : ∀ {bb insts}, (bb, insts) ∈ G.layout → ∀ inst ∈ insts, inst ∈ F.layoutInsts

theorem Cleared.refl (F : FunctionData) : Cleared F F :=
  ⟨fun _ => rfl, rfl, rfl, rfl, fun member _ inside => List.mem_flatMap.mpr ⟨_, member, inside⟩⟩

theorem Cleared.removeInstData (cleared : Cleared F G) {inst : Inst}
    (laidOut : inst ∈ F.layoutInsts) : Cleared F (G.removeInstData inst) where
  insts := by
    intro i kept
    have differ : i ≠ inst := by
      rintro rfl
      exact kept laidOut
    simpa [FunctionData.removeInstData, Function.update_of_ne differ] using cleared.insts kept
  nextInst := cleared.nextInst
  nextBlock := cleared.nextBlock
  blockParams := cleared.blockParams
  within := cleared.within

theorem Cleared.removeLayoutInst (cleared : Cleared F G) {inst : Inst}
    (laidOut : inst ∈ F.layoutInsts) (bb : BasicBlock) :
    Cleared F (G.removeLayoutInst bb inst) := by
  refine { cleared.removeInstData laidOut with within := ?_ }
  intro b insts member i inside
  simp only [FunctionData.removeLayoutInst, FunctionData.editBlock, FunctionData.removeInstData,
    List.mem_map, Prod.exists] at member
  obtain ⟨b', insts', member', same⟩ := member
  split at same
  · obtain ⟨rfl, rfl⟩ := Prod.mk.inj same
    exact cleared.within member' i (List.mem_of_mem_filter inside)
  · obtain ⟨rfl, rfl⟩ := Prod.mk.inj same
    exact cleared.within member' i inside

theorem Cleared.removeLayoutBasicblock (cleared : Cleared F G) (bb : BasicBlock) :
    Cleared F (G.removeLayoutBasicblock bb) := by
  have fold : ∀ (insts : List Inst) {H : FunctionData}, (∀ inst ∈ insts, inst ∈ F.layoutInsts) →
      Cleared F H → Cleared F (insts.foldl FunctionData.removeInstData H) := by
    intro insts
    induction insts with
    | nil => exact fun _ cleared => cleared
    | cons first rest ih =>
      intro H laidOut cleared
      exact ih (fun inst member => laidOut inst (by simp [member]))
        (cleared.removeInstData (laidOut first (by simp)))
  have inside : ∀ inst ∈ (G.blockInsts bb).getD [], inst ∈ F.layoutInsts := by
    intro inst member
    cases block : G.blockInsts bb with
    | none => simp [block] at member
    | some insts =>
      rw [block, Option.getD_some] at member
      exact cleared.within (FunctionData.mem_of_blockInsts block) inst member
  exact { fold _ inside cleared with
    within := fun member => (fold _ inside cleared).within (List.mem_of_mem_filter member) }

end Clear

/-! ## The new body -/

section NewBody

variable {F G : FunctionData} {entry : BasicBlock} {a b : Inst} {helper : Function}
  {modulus : BitVec 32}

/-- The instructions the new body consists of. -/
structure NewBody (G : FunctionData) (entry thenZero thenFast : BasicBlock) (n : Inst) (a b : Inst)
    (helper : Function) (modulus : BitVec 32) : Prop where
  layout : G.layout = [(entry, [n + 1, n + 2]), (thenZero, [n + 3]), (thenFast, [n + 5, n + 6])]
  zeroConst : G.insts n = some ⟨.int32, .integer 0⟩
  cond : G.insts (n + 1) = some ⟨.int32, .binary .lt b n⟩
  branch : G.insts (n + 2) = some ⟨.unit, .branch (n + 1) thenZero [] thenFast []⟩
  retZero : G.insts (n + 3) = some ⟨.unit, .ret (some n)⟩
  modulusConst : G.insts (n + 4) = some ⟨.int32, .integer modulus⟩
  call : G.insts (n + 5) = some ⟨.int32, .call helper [a, b, n + 4]⟩
  retCall : G.insts (n + 6) = some ⟨.unit, .ret (some (n + 5))⟩
  distinct : entry ≠ thenZero ∧ entry ≠ thenFast ∧ thenZero ≠ thenFast
  noParams : G.blockParams thenZero = [] ∧ G.blockParams thenFast = []

/-- The new body returns the closed form. -/
theorem NewBody.completes {World : Type} {S : Setting World} {f : Function}
    {thenZero thenFast : BasicBlock} {n : Inst}
    (body : NewBody G entry thenZero thenFast n a b helper modulus)
    (data : S.program.funcData f = some G) {H : FunctionData}
    (helperData : S.program.funcData helper = some H) (declared : H.layout = [])
    (named : H.name = mulmodHelper) (room : n + 6 < globalIdStart) {x y : BitVec 32}
    {act : Activation} (func : act.func = f) (rest : act.rest = [n + 1, n + 2])
    (argA : ∀ env : Env, (∀ inst < n, env inst = act.env inst) →
      S.ctx.operand G env a = some (.int x))
    (argB : ∀ env : Env, (∀ inst < n, env inst = act.env inst) →
      S.ctx.operand G env b = some (.int y))
    (σ : Shared World) :
    ∃ count σ', S.Completes count act σ (some (.int (closedForm x y modulus))) σ' := by
  have data_of : ∀ {k d}, k ≤ 6 → G.insts (n + k) = some d → S.ctx.instData G (n + k) = some d := by
    intro k d le h
    have : Inst.isGlobal (n + k) = false :=
      decide_eq_false (Nat.not_le_of_lt (Nat.lt_of_le_of_lt (Nat.add_le_add_left le n) room))
    simp [Ctx.instData, this, h]
  have blockZero : G.blockInsts thenZero = some [n + 3] := by
    simp [FunctionData.blockInsts, body.layout, List.lookup_cons,
      beq_eq_false_iff_ne.mpr body.distinct.1.symm]
  have blockFast : G.blockInsts thenFast = some [n + 5, n + 6] := by
    simp [FunctionData.blockInsts, body.layout, List.lookup_cons,
      beq_eq_false_iff_ne.mpr body.distinct.2.1.symm,
      beq_eq_false_iff_ne.mpr body.distinct.2.2.symm]
  have zeroOperand : ∀ env, S.ctx.operand G env n = some (.int 0) := by
    intro env
    have := @data_of 0 _ (by decide) body.zeroConst
    simp only [Nat.add_zero] at this
    simp [Ctx.operand, this, Ctx.isConst, Ctx.constVal]
  have modulusOperand : ∀ env, S.ctx.operand G env (n + 4) = some (.int modulus) := by
    intro env
    simp [Ctx.operand, data_of (by decide) body.modulusConst, Ctx.isConst, Ctx.constVal]
  -- the comparison
  have compared : S.move act σ =
      some (.stay (act.define (n + 1) (.int (truth (y.slt 0#32)))), σ) := by
    simp [Setting.move, func, data, rest, exec, body.cond, Ctx.pureVal, argB act.env fun _ _ => rfl,
      zeroOperand, foldBinary, Val.fit]
  set act₁ := act.define (n + 1) (.int (truth (y.slt 0#32))) with act₁Def
  have rest₁ : act₁.rest = [n + 2] := by simp [act₁Def, Activation.define, rest]
  have condOperand : S.ctx.operand G act₁.env (n + 1) = some (.int (truth (y.slt 0#32))) := by
    simp [Ctx.operand, data_of (by decide) body.cond, Ctx.isConst, act₁Def, Activation.define]
  have older : ∀ inst < n, act₁.env inst = act.env inst := by
    intro inst lt
    exact Function.update_of_ne (Nat.ne_of_lt (Nat.lt_succ_of_lt lt)) _ _
  have func₁ : act₁.func = f := func
  by_cases negative : y.toInt < 0
  · have isLt : y.slt 0#32 = true := by
      rw [BitVec.slt_iff_toInt_lt]
      simpa using negative
    have branched : S.move act₁ σ =
        some (.stay { act₁ with block := thenZero, rest := [n + 3] }, σ) := by
      simp [Setting.move, func₁, data, rest₁, exec, body.branch, condOperand, isLt, truth,
        Ctx.operands, Activation.enterBlock, body.noParams.1, blockZero, bindParams]
    have returned : ∃ σ', S.move { act₁ with block := thenZero, rest := [n + 3] } σ =
        some (.pop (some (.int 0)), σ') := by
      simp [Setting.move, func₁, data, exec, body.retZero, zeroOperand]
    obtain ⟨σ', returned⟩ := returned
    rw [closedForm_of_nonpos (Int.le_of_lt negative)]
    exact ⟨_, σ', .of_stay compared (.of_stay branched (.of_pop returned))⟩
  · have notLt : y.slt 0#32 = false := by
      rw [Bool.eq_false_iff, ne_eq, BitVec.slt_iff_toInt_lt]
      simpa using negative
    have branched : S.move act₁ σ =
        some (.stay { act₁ with block := thenFast, rest := [n + 5, n + 6] }, σ) := by
      simp [Setting.move, func₁, data, rest₁, exec, body.branch, condOperand, notLt, truth,
        Ctx.operands, Activation.enterBlock, body.noParams.2, blockFast, bindParams]
    set act₂ : Activation := { act₁ with block := thenFast, rest := [n + 5, n + 6] } with act₂Def
    have result : mulmodBuiltin [.int x, .int y, .int modulus] =
        some (.int (closedForm x y modulus)) := by
      simp [mulmodBuiltin, closedForm, negative]
    have called : S.move act₂ σ =
        some (.stay (act₂.define (n + 5) (.int (closedForm x y modulus))), σ) := by
      simp [Setting.move, act₂Def, func₁, data, exec, body.call, Ctx.operands, argA act₁.env older,
        argB act₁.env older, modulusOperand, Setting.moveCall, helperData, declared, named,
        callExternal, result, Activation.resume, Val.fit]
    have returned : ∃ σ', S.move (act₂.define (n + 5) (.int (closedForm x y modulus))) σ =
        some (.pop (some (.int (closedForm x y modulus))), σ') := by
      simp [Setting.move, act₂Def, Activation.define, func₁, data, exec, body.retCall, Ctx.operand,
        data_of (by decide) body.call, Ctx.isConst]
    obtain ⟨σ', returned⟩ := returned
    exact ⟨_, σ', .of_stay compared (.of_stay branched (.of_stay called (.of_pop returned)))⟩

end NewBody

/-! ## The rewritten program -/

section Program

variable {P Q : Program} {f helper : Function} {F : FunctionData}

variable {candidates : List Function} {modulus : BitVec 32}

/-- The matcher reads the function's own data only. -/
theorem matchShape_congr (same : P.funcData f = Q.funcData f) :
    matchShape P f = matchShape Q f := by
  simp only [matchShape, same]

theorem recognize_congr (same : P.funcData f = Q.funcData f) : recognize P f = recognize Q f := by
  simp only [recognize, matchShape_congr same]

/-- A declaration has no body to recognise. -/
theorem recognize_declared (data : P.funcData f = some F) (declared : F.layout = []) :
    recognize P f = none := by
  cases found : matchShape P f with
  | none => rw [recognize, found, Option.map_none]
  | some s =>
    obtain ⟨G, data', matched⟩ := matched_of_matchShape found
    obtain rfl := Option.some.inj (data.symm.trans data')
    have entry := matched.entry
    simp [FunctionData.entryBlock, declared] at entry

theorem rewrite_other {g : Function} (other : g ≠ f) (modulus : BitVec 32) :
    (rewrite P f helper modulus).funcData g = P.funcData g := by
  unfold rewrite
  split
  · simp only [Program.funcData]
    exact List.getElem?_set_ne other.symm
  · rfl

theorem rewrite_self (data : P.funcData f = some F) (modulus : BitVec 32) :
    (rewrite P f helper modulus).funcData f = some (rewriteData F helper modulus) := by
  simp only [rewrite, data]
  simp only [Program.funcData] at data ⊢
  have below : f < P.funcs.length := (List.getElem?_eq_some_iff.mp data).1
  exact List.getElem?_set_self below

theorem rewriteAll_other (other : f ∉ candidates) :
    (rewriteAll helper P candidates).funcData f = P.funcData f := by
  induction candidates generalizing P with
  | nil => rfl
  | cons first later ih =>
    simp only [List.mem_cons, not_or] at other
    rw [rewriteAll, List.foldl_cons]
    refine (ih other.2).trans ?_
    split
    · exact rewrite_other other.1 _
    · rfl

theorem rewriteAll_self (nodup : candidates.Nodup) (member : f ∈ candidates)
    (data : P.funcData f = some F) (recognized : recognize P f = some modulus) :
    (rewriteAll helper P candidates).funcData f = some (rewriteData F helper modulus) := by
  induction candidates generalizing P with
  | nil => simp at member
  | cons first later ih =>
    rw [List.nodup_cons] at nodup
    rw [rewriteAll, List.foldl_cons]
    by_cases isFirst : f = first
    · subst isFirst
      rw [recognized]
      exact (rewriteAll_other nodup.1).trans (rewrite_self data modulus)
    · have later' : f ∈ later := (List.mem_cons.mp member).resolve_left isFirst
      cases recognize P first with
      | none => exact ih nodup.2 later' data recognized
      | some modulus' =>
        have unchanged : (rewrite P first helper modulus').funcData f = P.funcData f :=
          rewrite_other isFirst modulus'
        exact ih nodup.2 later' (unchanged.trans data)
          ((recognize_congr unchanged).trans recognized)

/-- The helper the pass calls is declared under its name, and no function has
changed. -/
theorem findOrDeclareHelper_spec (notOwned : ownsHelper P = false) :
    (∃ H, (findOrDeclareHelper P).2.funcData (findOrDeclareHelper P).1 = some H ∧
      H.layout = [] ∧ H.name = mulmodHelper) ∧
    ∀ {g G}, P.funcData g = some G → (findOrDeclareHelper P).2.funcData g = some G := by
  unfold findOrDeclareHelper
  split
  · next h found =>
      refine ⟨?_, fun data => data⟩
      have named := List.find?_some found
      have member := List.mem_of_find?_eq_some found
      unfold isNamed at named
      split at named
      · next H data =>
          refine ⟨H, data, ?_, by simpa using named⟩
          have notOwner := List.any_eq_false.mp notOwned h member
          simp only [data, Bool.and_eq_true, not_and] at notOwner
          have noEntry := notOwner named
          cases layout : H.layout with
          | nil => rfl
          | cons first rest => simp [FunctionData.entryBlock, layout] at noEntry
      · cases named
  · refine ⟨⟨helperDecl, ?_, rfl, rfl⟩, ?_⟩
    · simp [Program.funcData]
    · intro g G data
      simp only [Program.funcData] at data ⊢
      have below : g < P.funcs.length := (List.getElem?_eq_some_iff.mp data).1
      rw [List.getElem?_append_left below, data]

/-- What the pass makes of a function it recognises. -/
theorem run_funcData (wellFormed : P.WellFormed) (laidOut : f ∈ P.functionLayout)
    (data : P.funcData f = some F) (recognized : recognize P f = some modulus)
    (notOwned : ownsHelper P = false) :
    ∃ helper H, (run P).funcData f = some (rewriteData F helper modulus) ∧
      (run P).funcData helper = some H ∧ H.layout = [] ∧ H.name = mulmodHelper := by
  obtain ⟨⟨H, helperData, declared, named⟩, keeps⟩ := findOrDeclareHelper_spec notOwned
  set candidates := P.functionLayout.filter fun f => (recognize P f).isSome with candidatesDef
  have member : f ∈ candidates := List.mem_filter.mpr ⟨laidOut, by simp [recognized]⟩
  have someCandidate : candidates ≠ [] := List.ne_nil_of_mem member
  have runs : run P = rewriteAll (findOrDeclareHelper P).1 (findOrDeclareHelper P).2
    candidates := by
    simp only [run, ← candidatesDef, someCandidate, if_false, notOwned, Bool.false_eq_true]
  have notCandidate : (findOrDeclareHelper P).1 ∉ candidates := by
    intro isCandidate
    have accepted := (List.mem_filter.mp isCandidate).2
    obtain ⟨p, recognized'⟩ := Option.isSome_iff_exists.mp accepted
    -- a candidate has data in the program, and the same data afterwards: no body
    cases before : P.funcData (findOrDeclareHelper P).1 with
    | none =>
      obtain ⟨s, found, -⟩ := Option.map_eq_some_iff.mp recognized'
      obtain ⟨G, data', -⟩ := matched_of_matchShape found
      cases before.symm.trans data'
    | some G =>
      have same := (keeps before).symm.trans helperData
      rw [recognize_declared before (by rw [Option.some.inj same, declared])] at recognized'
      cases recognized'
  refine ⟨(findOrDeclareHelper P).1, H, ?_, ?_, declared, named⟩
  · rw [runs]
    refine rewriteAll_self (wellFormed.layout_nodup.filter _) member (keeps data) ?_
    exact (recognize_congr ((keeps data).trans data.symm)).trans recognized
  · rw [runs, rewriteAll_other notCandidate, helperData]

end Program

/-! ## Preservation -/

section Preservation

variable {World : Type} {S : Setting World} {f : Function} {F : FunctionData} {s : Shape}
  {x y : BitVec 32}

/-- The setting after the pass. -/
def optimized (S : Setting World) : Setting World := { S with program := run S.program }

end Preservation

/-! ## The documented function -/

end AnonCompiler.Opt.Mulmod
