import AnonCompiler.Ir.WellFormed

/-!
# Tail-call elimination

The pass of `opt/passes/tco.rs`.  A call that is immediately followed by a return
of its result, to a function of the same signature, becomes a tail call.  The
pass looks at types and adjacency only.

`Tailed` says what the rewritten function is: the same blocks, in which a call
and a return at the end have given way to a tail call.
-/

set_option autoImplicit false

namespace AnonCompiler.Opt.TailCallElim

open Ir

/-- A call to be rewritten. -/
structure Site where
  block : BasicBlock
  call : Inst
  callee : Function
  args : List Inst

/-- The arguments have the types of the parameters. -/
def argsFit (P : Program) (F : FunctionData) (args : List Inst) (paramsTy : List Ty) : Bool :=
  args.length = paramsTy.length && (args.zip paramsTy).all fun (arg, ty) => P.typeOf F arg = some ty

/-- The call at the end of a block that the pass rewrites. -/
def siteOf (P : Program) (F : FunctionData) (entry : BasicBlock × List Inst) : Option Site :=
  match entry.2.reverse with
  | terminator :: call :: _ =>
    match F.kind terminator, F.insts call with
    | some (.ret value), some ⟨callTy, .call callee args⟩ =>
      match P.funcData callee with
      | some G =>
        if F.retTy ≠ G.retTy ∨ F.paramsTy ≠ G.paramsTy ∨ callTy ≠ G.retTy ∨
            argsFit P F args G.paramsTy = false then none
        else
          match value with
          | some returned =>
            if returned = call then some ⟨entry.1, call, callee, args⟩ else none
          | none => if F.usedBy call = [] then some ⟨entry.1, call, callee, args⟩ else none
      | none => none
    | _, _ => none
  | _ => none

def rewriteSite (F : FunctionData) (site : Site) : FunctionData :=
  let F := F.removeLayoutInst site.block site.call
  match (F.blockInsts site.block).bind List.getLast? with
  | some terminator =>
    let F := F.removeLayoutInst site.block terminator
    let tailCall := F.nextInst
    (F.newInst ⟨.unit, .tailCall site.callee site.args⟩).insertInst site.block tailCall
  | none => F

def sites (P : Program) (F : FunctionData) : List Site := F.layout.filterMap (siteOf P F)

def runOn (P : Program) (F : FunctionData) : FunctionData := (sites P F).foldl rewriteSite F

def runFunction (P : Program) (f : Function) : Program :=
  match P.funcData f with
  | some F => { P with funcs := P.funcs.set f (runOn P F) }
  | none => P

def run (P : Program) : Program := P.functionLayout.foldl runFunction P

/-- The instruction is a call that the pass rewrites. -/
def isSite (P : Program) (F : FunctionData) (inst : Inst) : Bool :=
  (sites P F).any fun site => site.call = inst

/-! ## The rewritten function -/

/-- The instructions of a block, or the last of them, before and after. -/
inductive Rest (site : Inst → Bool) (F F' : FunctionData) : List Inst → List Inst → Prop where
  | nil : Rest site F F' [] []
  | cons {inst : Inst} {rest rest' : List Inst} (same : F'.insts inst = F.insts inst)
      (notSite : site inst = false) (later : Rest site F F' rest rest') :
      Rest site F F' (inst :: rest) (inst :: rest')
  | tail {call ret tailCall : Inst} {ty : Ty} {callee : Function} {args : List Inst}
      {value : Option Inst} (isSite : site call = true)
      (isCall : F.insts call = some ⟨ty, .call callee args⟩)
      (isRet : F.kind ret = some (.ret value)) (returns : value = some call ∨ value = none)
      (isTail : F'.insts tailCall = some ⟨.unit, .tailCall callee args⟩) :
      Rest site F F' [call, ret] [tailCall]

/-- What the pass makes of a function. -/
structure Tailed (site : Inst → Bool) (F F' : FunctionData) : Prop where
  name : F'.name = F.name
  blocks : F'.blocks = F.blocks
  blockParams : F'.blockParams = F.blockParams
  rest : ∀ {bb insts}, F.blockInsts bb = some insts →
    ∃ insts', F'.blockInsts bb = some insts' ∧ Rest site F F' insts insts'
  insts : ∀ i, F'.insts i = F.insts i ∨
    i ∈ F.layoutInsts ∧ F'.insts i = none ∧
      ((∃ ty callee args, F.insts i = some ⟨ty, .call callee args⟩) ∨
        ∃ ty value, F.insts i = some ⟨ty, .ret value⟩) ∨
    F.insts i = none ∧ ∃ callee args, F'.insts i = some ⟨.unit, .tailCall callee args⟩

section Spec

variable {P : Program} {F F' G : FunctionData}

/-- What a site is. -/
structure SiteAt (F : FunctionData) (site : Site) (insts : List Inst) : Prop where
  shape : ∃ before ret, insts = before ++ [site.call, ret] ∧ ∃ ty value,
    F.insts ret = some ⟨ty, .ret value⟩ ∧ (value = some site.call ∨ value = none)
  isCall : ∃ ty, F.insts site.call = some ⟨ty, .call site.callee site.args⟩

variable {bb : BasicBlock} {insts before : List Inst} {ret : Inst}

theorem siteAt_of_siteOf {site : Site} (h : siteOf P F (bb, insts) = some site) :
    site.block = bb ∧ SiteAt F site insts := by
  unfold siteOf at h
  split at h
  · next ret call before reversed =>
      have shape : insts = before.reverse ++ [call, ret] := by
        have := congrArg List.reverse reversed
        simpa using this
      split at h
      · next value callTy callee args isRet isCall =>
          obtain ⟨data, isRet', kind⟩ := Option.map_eq_some_iff.mp isRet
          obtain ⟨ty, kind'⟩ := data
          obtain rfl : kind' = .ret value := kind
          split at h
          · split at h
            · cases h
            · split at h
              · next returned =>
                  split at h
                  · next isResult =>
                      obtain rfl := Option.some.inj h
                      exact ⟨rfl, ⟨_, _, shape, _, _, isRet', .inl (by rw [isResult])⟩, _, isCall⟩
                  · cases h
              · split at h
                · obtain rfl := Option.some.inj h
                  exact ⟨rfl, ⟨_, _, shape, _, _, isRet', .inr rfl⟩, _, isCall⟩
                · cases h
          · cases h
      · cases h
  · cases h

theorem filter_pair {call : Inst} (notBefore : call ∉ before) (ne : call ≠ ret) :
    (before ++ [call, ret]).filter (· ≠ call) = before ++ [ret] := by
  have kept : before.filter (· ≠ call) = before :=
    List.filter_eq_self.mpr fun inst member => by
      simpa using fun same : inst = call => notBefore (same ▸ member)
  rw [List.filter_append, kept]
  simp [ne.symm]

/-- One rewritten site. -/
theorem rewriteSite_spec {site : Site}
    (block : G.blockInsts site.block = some (before ++ [site.call, ret]))
    (nodup : (before ++ [site.call, ret]).Nodup) :
    (rewriteSite G site).name = G.name ∧ (rewriteSite G site).blocks = G.blocks ∧
      (rewriteSite G site).blockParams = G.blockParams ∧
      (rewriteSite G site).nextInst = G.nextInst + 1 ∧
      (∀ bb, (rewriteSite G site).blockInsts bb =
        if bb = site.block then some (before ++ [G.nextInst]) else G.blockInsts bb) ∧
      (rewriteSite G site).insts = Function.update
        (Function.update (Function.update G.insts site.call none) ret none) G.nextInst
        (some ⟨.unit, .tailCall site.callee site.args⟩) := by
  simp only [List.nodup_append, List.nodup_cons, List.mem_cons, List.not_mem_nil, or_false,
    not_false_eq_true, List.nodup_nil, and_true] at nodup
  obtain ⟨-, ne, apart⟩ := nodup
  have callBefore : site.call ∉ before := fun member => apart _ member site.call (.inl rfl) rfl
  have retBefore : ret ∉ before := fun member => apart _ member ret (.inr rfl) rfl
  have first : ∀ bb, (G.removeLayoutInst site.block site.call).blockInsts bb =
      if bb = site.block then some (before ++ [ret]) else G.blockInsts bb := by
    intro bb
    refine (FunctionData.editBlock_blockInsts _ bb).trans ?_
    rw [block, Option.map_some, filter_pair callBefore ne]
  have last : ((G.removeLayoutInst site.block site.call).blockInsts site.block).bind
      List.getLast? = some ret := by
    simp [first]
  have second : ∀ bb, ((G.removeLayoutInst site.block site.call).removeLayoutInst site.block
      ret).blockInsts bb = if bb = site.block then some before else G.blockInsts bb := by
    intro bb
    refine (FunctionData.editBlock_blockInsts _ bb).trans ?_
    rw [first, if_pos rfl, Option.map_some, List.filter_append]
    have kept : before.filter (· ≠ ret) = before :=
      List.filter_eq_self.mpr fun inst member => by
        simpa using fun same : inst = ret => retBefore (same ▸ member)
    rw [kept]
    by_cases isBlock : bb = site.block
    · simp [isBlock]
    · simp [isBlock, first]
  unfold rewriteSite
  simp only [last]
  refine ⟨rfl, ?_, rfl, rfl, fun bb => ?_, rfl⟩
  · simp only [FunctionData.insertInst, FunctionData.editBlock_blocks]
    exact (FunctionData.editBlock_blocks _).trans (FunctionData.editBlock_blocks _)
  · refine (FunctionData.editBlock_blockInsts _ bb).trans ?_
    have same : ∀ (H : FunctionData) (data : InstData) (b : BasicBlock),
        (H.newInst data).blockInsts b = H.blockInsts b := fun _ _ _ => rfl
    rw [same, same, second, second]
    by_cases isBlock : bb = site.block
    · simp only [isBlock, if_true, Option.map_some]
      rfl
    · simp only [isBlock, if_false]

/-- The function after some of its sites have been rewritten. -/
structure Progress (F : FunctionData) (done : List Site) (G : FunctionData) : Prop where
  name : G.name = F.name
  blocks : G.blocks = F.blocks
  blockParams : G.blockParams = F.blockParams
  nextInst : F.nextInst ≤ G.nextInst
  kept : ∀ bb, bb ∉ done.map Site.block → G.blockInsts bb = F.blockInsts bb
  tail : ∀ site ∈ done, ∃ before ret tailCall,
    F.blockInsts site.block = some (before ++ [site.call, ret]) ∧
      G.blockInsts site.block = some (before ++ [tailCall]) ∧ F.nextInst ≤ tailCall ∧
      tailCall < G.nextInst ∧ G.insts tailCall = some ⟨.unit, .tailCall site.callee site.args⟩
  insts : ∀ i, G.insts i = F.insts i ∨
    (G.insts i = none ∧ ∃ site ∈ done, ∃ before ret,
      F.blockInsts site.block = some (before ++ [site.call, ret]) ∧ (i = site.call ∨ i = ret)) ∨
    F.insts i = none ∧ ∃ callee args, G.insts i = some ⟨.unit, .tailCall callee args⟩

theorem Progress.step (wellFormed : F.WellFormed) {done : List Site} {site : Site}
    (progress : Progress F done G) (fresh : site.block ∉ done.map Site.block) {insts : List Inst}
    (block : F.blockInsts site.block = some insts) (siteAt : SiteAt F site insts) :
    Progress F (done ++ [site]) (rewriteSite G site) := by
  obtain ⟨⟨before, ret, rfl, retTy, value, isRet, -⟩, callTy, isCall⟩ := siteAt
  have nodup : (before ++ [site.call, ret]).Nodup :=
    List.Nodup.sublist (List.sublist_flatten_of_mem (List.mem_map.mpr
      ⟨_, FunctionData.mem_of_blockInsts block, rfl⟩)) wellFormed.layout_nodup
  obtain ⟨name, blocks, params, next, blockInsts, arena⟩ :=
    rewriteSite_spec ((progress.kept _ fresh).trans block) nodup
  have callBelow : site.call < F.nextInst := wellFormed.inst_lt (by simp [isCall])
  have retBelow : ret < F.nextInst := wellFormed.inst_lt (by simp [isRet])
  refine ⟨name.trans progress.name, blocks.trans progress.blocks, params.trans progress.blockParams,
    ?_, ?_, ?_, ?_⟩
  · rw [next]
    exact Nat.le_succ_of_le progress.nextInst
  · intro bb outside
    simp only [List.map_append, List.map_cons, List.map_nil, List.mem_append, List.mem_singleton,
      not_or] at outside
    rw [blockInsts, if_neg outside.2, progress.kept bb outside.1]
  · intro other member
    rcases List.mem_append.mp member with older | newest
    · obtain ⟨before', ret', tailCall, original, rewritten, lower, upper, isTail⟩ :=
        progress.tail other older
      have differ : other.block ≠ site.block := by
        intro same
        exact fresh (same ▸ List.mem_map.mpr ⟨other, older, rfl⟩)
      refine ⟨before', ret', tailCall, original, ?_, lower, ?_, ?_⟩
      · rw [blockInsts, if_neg differ, rewritten]
      · rw [next]
        exact Nat.lt_succ_of_lt upper
      · rw [arena, Function.update_of_ne (Nat.ne_of_lt upper),
          Function.update_of_ne (Nat.ne_of_gt (Nat.lt_of_lt_of_le retBelow lower)),
          Function.update_of_ne (Nat.ne_of_gt (Nat.lt_of_lt_of_le callBelow lower)), isTail]
    · obtain rfl := List.mem_singleton.mp newest
      refine ⟨before, ret, G.nextInst, block, ?_, progress.nextInst, ?_, ?_⟩
      · rw [blockInsts, if_pos rfl]
      · rw [next]
        exact Nat.lt_succ_self _
      · rw [arena, Function.update_self]
  · intro i
    by_cases isNew : i = G.nextInst
    · refine .inr (.inr ⟨?_, site.callee, site.args, by rw [arena, isNew, Function.update_self]⟩)
      by_contra present
      exact Nat.not_lt_of_le progress.nextInst (isNew ▸ wellFormed.inst_lt present)
    by_cases removed : i = site.call ∨ i = ret
    · refine .inr (.inl ⟨?_, site, by simp, before, ret, block, removed⟩)
      rw [arena, Function.update_of_ne isNew]
      rcases removed with rfl | rfl
      · by_cases same : site.call = ret
        · rw [same, Function.update_self]
        · rw [Function.update_of_ne same, Function.update_self]
      · rw [Function.update_self]
    · rw [not_or] at removed
      rw [arena, Function.update_of_ne isNew, Function.update_of_ne removed.2,
        Function.update_of_ne removed.1]
      refine (progress.insts i).imp_right (Or.imp_left ?_)
      rintro ⟨gone, other, member, rest⟩
      exact ⟨gone, other, List.mem_append_left _ member, rest⟩

theorem Progress.foldl (wellFormed : F.WellFormed) (rest : List Site) :
    ∀ {done G}, Progress F done G → ((done ++ rest).map Site.block).Nodup →
      (∀ site ∈ rest, ∃ insts, F.blockInsts site.block = some insts ∧ SiteAt F site insts) →
      Progress F (done ++ rest) (rest.foldl rewriteSite G) := by
  induction rest with
  | nil =>
    intro done G progress _ _
    simpa using progress
  | cons site rest ih =>
    intro done G progress nodup all
    obtain ⟨insts, block, siteAt⟩ := all site (by simp)
    have fresh : site.block ∉ done.map Site.block := by
      intro member
      rw [List.map_append, List.nodup_append] at nodup
      exact nodup.2.2 _ member site.block (by simp) rfl
    have step := progress.step wellFormed fresh block siteAt
    rw [List.foldl_cons, List.append_cons]
    exact ih step (by simpa using nodup) fun other member => all other (by simp [member])

theorem mem_sites {site : Site} (member : site ∈ sites P F) (wellFormed : F.WellFormed) :
    ∃ insts, F.blockInsts site.block = some insts ∧ SiteAt F site insts := by
  obtain ⟨⟨bb, insts⟩, laidOut, found⟩ := List.mem_filterMap.mp member
  obtain ⟨rfl, siteAt⟩ := siteAt_of_siteOf found
  exact ⟨insts, FunctionData.blockInsts_of_mem wellFormed.blocks_nodup laidOut, siteAt⟩

theorem sites_nodup (wellFormed : F.WellFormed) : ((sites P F).map Site.block).Nodup := by
  have sublist : ∀ layout : List (BasicBlock × List Inst),
      ((layout.filterMap (siteOf P F)).map Site.block).Sublist (layout.map Prod.fst) := by
    intro layout
    induction layout with
    | nil => exact .slnil
    | cons entry rest ih =>
      cases found : siteOf P F entry with
      | none =>
        rw [List.filterMap_cons_none found]
        exact .cons _ ih
      | some site =>
        rw [List.filterMap_cons_some found]
        have same : site.block = entry.1 := (siteAt_of_siteOf found).1
        simp only [List.map_cons, same]
        exact .cons_cons _ ih
  exact wellFormed.blocks_nodup.sublist (sublist F.layout)

/-- A rewritten call is the last instruction but one of its block. -/
theorem isSite_position (wellFormed : F.WellFormed) {inst : Inst} (site : isSite P F inst = true)
    (block : F.blockInsts bb = some insts) (member : inst ∈ insts) :
    ∃ site ∈ sites P F, site.block = bb ∧ site.call = inst := by
  obtain ⟨site, isMember, same⟩ := List.any_eq_true.mp site
  have same : site.call = inst := by simpa using same
  obtain ⟨insts', block', ⟨⟨before, ret, rfl, -⟩, -⟩⟩ := mem_sites isMember wellFormed
  exact ⟨site, isMember, wellFormed.block_unique block' block (by simp [same]) member, same⟩

theorem rest_of_kept {site : Inst → Bool} (insts : List Inst)
    (kept : ∀ inst ∈ insts, F'.insts inst = F.insts inst ∧ site inst = false)
    {last last' : List Inst} (end_ : Rest site F F' last last') :
    Rest site F F' (insts ++ last) (insts ++ last') := by
  induction insts with
  | nil => exact end_
  | cons inst insts ih =>
    obtain ⟨same, notSite⟩ := kept inst (by simp)
    exact .cons same notSite (ih fun i member => kept i (by simp [member]))

theorem tailed_runOn (P : Program) (wellFormed : F.WellFormed) :
    Tailed (isSite P F) F (runOn P F) := by
  have start : Progress F [] F := ⟨rfl, rfl, rfl, Nat.le_refl _, fun _ _ => rfl, by simp,
    fun _ => .inl rfl⟩
  have progress : Progress F (sites P F) (runOn P F) := by
    have := Progress.foldl wellFormed (sites P F) start (by simpa using sites_nodup wellFormed)
      fun site member => mem_sites member wellFormed
    rwa [List.nil_append] at this
  have nodupOf : ∀ {bb insts}, F.blockInsts bb = some insts → insts.Nodup := fun block =>
    List.Nodup.sublist (List.sublist_flatten_of_mem (List.mem_map.mpr
      ⟨_, FunctionData.mem_of_blockInsts block, rfl⟩)) wellFormed.layout_nodup
  -- an instruction of the layout that is neither the call nor the return of a site is kept
  have kept : ∀ {bb insts inst}, F.blockInsts bb = some insts → inst ∈ insts →
      (∀ site ∈ sites P F, site.block = bb → ∀ before ret, insts = before ++ [site.call, ret] →
        inst ∈ before) →
      (runOn P F).insts inst = F.insts inst ∧ isSite P F inst = false := by
    intro bb insts inst block member notLast
    constructor
    · rcases progress.insts inst with same | ⟨-, site, isSite, before, ret, block',
        removed⟩ | ⟨new, -⟩
      · exact same
      · have sameBlock : site.block = bb :=
          wellFormed.block_unique block' block (by rcases removed with rfl | rfl <;> simp) member
        subst sameBlock
        obtain rfl := Option.some.inj (block.symm.trans block')
        have inside := notLast site isSite rfl before ret rfl
        have nodup := nodupOf block
        rw [List.nodup_append] at nodup
        exact absurd rfl (nodup.2.2 inst inside inst (by rcases removed with rfl | rfl <;> simp))
      · obtain ⟨data, found, -⟩ := wellFormed.laidOut (FunctionData.mem_layoutInsts block member)
        simp [new] at found
    · by_contra isSite
      obtain ⟨site, isMember, rfl, rfl⟩ :=
        isSite_position wellFormed (by simpa using isSite) block member
      obtain ⟨insts', block', ⟨⟨before, ret, rfl, -⟩, -⟩⟩ := mem_sites isMember wellFormed
      obtain rfl := Option.some.inj (block.symm.trans block')
      have inside := notLast site isMember rfl before ret rfl
      have nodup := nodupOf block
      rw [List.nodup_append] at nodup
      exact nodup.2.2 _ inside site.call (by simp) rfl
  refine ⟨progress.name, progress.blocks, progress.blockParams, ?_, ?_⟩
  · intro bb insts block
    by_cases rewritten : bb ∈ (sites P F).map Site.block
    · obtain ⟨site, isMember, rfl⟩ := List.mem_map.mp rewritten
      obtain ⟨before, ret, tailCall, block', after, -, -, isTail⟩ := progress.tail site isMember
      obtain rfl := Option.some.inj (block.symm.trans block')
      obtain ⟨insts', block'', siteAt⟩ := mem_sites isMember wellFormed
      obtain rfl := Option.some.inj (block.symm.trans block'')
      obtain ⟨⟨before', ret', shape, retTy, value, isRet, returns⟩, ty, isCall⟩ := siteAt
      obtain ⟨rfl, same⟩ := List.append_inj' shape rfl
      obtain rfl : ret = ret' := by simpa using same
      refine ⟨_, after, rest_of_kept before
        (fun inst inside => kept block (by simp [inside]) ?_) ?_⟩
      · intro other member sameBlock before' ret' shape'
        obtain ⟨rfl, -⟩ := List.append_inj' shape' rfl
        exact inside
      · have isSiteCall : isSite P F site.call = true :=
          List.any_eq_true.mpr ⟨site, isMember, by simp⟩
        exact .tail isSiteCall isCall (by simp [FunctionData.kind, isRet]) returns isTail
    · refine ⟨insts, (progress.kept bb rewritten).trans block, ?_⟩
      have whole := @rest_of_kept F (runOn P F) (isSite P F) insts
        (fun inst inside => kept block inside fun site isMember sameBlock => ?_) _ _ .nil
      · simpa using whole
      · exact absurd (List.mem_map.mpr ⟨site, isMember, sameBlock⟩) rewritten
  · intro i
    refine (progress.insts i).imp_right (Or.imp_left ?_)
    rintro ⟨gone, site, isMember, before, ret, block, removed⟩
    obtain ⟨insts', block', siteAt⟩ := mem_sites isMember wellFormed
    obtain rfl := Option.some.inj (block.symm.trans block')
    obtain ⟨⟨before', ret', shape, retTy, value, isRet, -⟩, ty, isCall⟩ := siteAt
    obtain ⟨rfl, same⟩ := List.append_inj' shape rfl
    obtain rfl : ret = ret' := by simpa using same
    refine ⟨FunctionData.mem_layoutInsts block
      (by rcases removed with rfl | rfl <;> simp), gone, ?_⟩
    rcases removed with rfl | rfl
    · exact .inl ⟨ty, site.callee, site.args, isCall⟩
    · exact .inr ⟨retTy, value, isRet⟩

/-- A function the pass does not visit. -/
theorem Tailed.refl (F : FunctionData) : Tailed (fun _ => false) F F := by
  refine ⟨rfl, rfl, rfl, fun {bb insts} block => ⟨insts, block, ?_⟩, fun _ => .inl rfl⟩
  have whole := @rest_of_kept F F (fun _ => false) insts (fun _ _ => ⟨rfl, rfl⟩) _ _ .nil
  simpa using whole

end Spec

/-! ## The rewritten program -/

section Program

variable {P Q : Program} {F : FunctionData} {f : Function}

/-- The instruction of the function `f` is a call that the pass rewrites. -/
def siteIn (P : Program) (f : Function) (inst : Inst) : Bool :=
  match P.funcData f with
  | some F => f ∈ P.functionLayout && isSite P F inst
  | none => false

/-- The parts of a program the choice of the sites depends on. -/
structure SameSignatures (P Q : Program) : Prop where
  globals : Q.globals = P.globals
  funcs : ∀ g, (Q.funcData g).map (fun G => (G.retTy, G.paramsTy)) =
    (P.funcData g).map fun G => (G.retTy, G.paramsTy)

theorem sites_congr (same : SameSignatures P Q) (F : FunctionData) : sites Q F = sites P F := by
  have typeOf : ∀ inst, Q.typeOf F inst = P.typeOf F inst := by
    intro inst
    simp only [Program.typeOf, Program.instData, same.globals]
  have argsFit_eq : ∀ args tys, argsFit Q F args tys = argsFit P F args tys := by
    intro args tys
    simp only [argsFit, typeOf]
  refine List.filterMap_congr fun entry _ => ?_
  unfold siteOf
  split
  · split
    · next value callTy callee args _ _ =>
        have signatures := same.funcs callee
        cases found : P.funcData callee with
        | none =>
          cases found' : Q.funcData callee with
          | none => rfl
          | some G => simp [found, found'] at signatures
        | some G =>
          cases found' : Q.funcData callee with
          | none => simp [found, found'] at signatures
          | some H =>
            obtain ⟨retTy, paramsTy⟩ : H.retTy = G.retTy ∧ H.paramsTy = G.paramsTy := by
              simpa [found, found'] using signatures
            simp only [retTy, paramsTy, argsFit_eq]
    · rfl
  · rfl

theorem runOn_signature (P : Program) (F : FunctionData) :
    (runOn P F).retTy = F.retTy ∧ (runOn P F).paramsTy = F.paramsTy := by
  have step : ∀ (G : FunctionData) (site : Site),
      (rewriteSite G site).retTy = G.retTy ∧ (rewriteSite G site).paramsTy = G.paramsTy := by
    intro G site
    unfold rewriteSite
    simp only
    split <;> exact ⟨rfl, rfl⟩
  have fold : ∀ (rest : List Site) (G : FunctionData),
      (rest.foldl rewriteSite G).retTy = G.retTy ∧
        (rest.foldl rewriteSite G).paramsTy = G.paramsTy := by
    intro rest
    induction rest with
    | nil => exact fun _ => ⟨rfl, rfl⟩
    | cons site rest ih =>
      intro G
      obtain ⟨retTy, paramsTy⟩ := ih (rewriteSite G site)
      exact ⟨retTy.trans (step G site).1, paramsTy.trans (step G site).2⟩
  exact fold (sites P F) F

/-- The pass visits every function of the layout once, and what it does to one
does not depend on the others it has changed. -/
theorem foldl_funcData (layout : List Function) (nodup : layout.Nodup) :
    ∀ {Q}, SameSignatures P Q → (∀ g ∈ layout, Q.funcData g = P.funcData g) →
      (layout.foldl runFunction Q).globals = P.globals ∧
        (layout.foldl runFunction Q).mainFunction = Q.mainFunction ∧
        ∀ g, (layout.foldl runFunction Q).funcData g =
          if g ∈ layout then (P.funcData g).map (runOn P) else Q.funcData g := by
  induction layout with
  | nil => exact fun same _ => ⟨same.globals, rfl, fun g => by simp⟩
  | cons first rest ih =>
    intro Q same untouched
    rw [List.nodup_cons] at nodup
    have here := untouched first (by simp)
    cases found : P.funcData first with
    | none =>
      rw [found] at here
      obtain ⟨globals, main, after⟩ :=
        ih nodup.2 same fun g member => untouched g (by simp [member])
      simp only [List.foldl_cons, runFunction, here]
      refine ⟨globals, main, fun g => ?_⟩
      rw [after g]
      by_cases isFirst : g = first
      · subst isFirst
        simp [nodup.1, found, here]
      · simp [isFirst]
    | some F =>
      rw [found] at here
      have below : first < Q.funcs.length := (List.getElem?_eq_some_iff.mp here).1
      have runs : runOn Q F = runOn P F := by
        simp only [runOn, sites_congr same]
      set Q' : Program := { Q with funcs := Q.funcs.set first (runOn Q F) } with Q'Def
      have self : Q'.funcData first = some (runOn P F) := by
        rw [← runs]
        exact List.getElem?_set_self below
      have others : ∀ {g}, g ≠ first → Q'.funcData g = Q.funcData g := fun differ =>
        List.getElem?_set_ne differ.symm
      have same' : SameSignatures P Q' := by
        refine ⟨same.globals, fun g => ?_⟩
        by_cases isFirst : g = first
        · subst isFirst
          obtain ⟨retTy, paramsTy⟩ := runOn_signature P F
          rw [self, found, Option.map_some, Option.map_some, retTy, paramsTy]
        · rw [others isFirst, same.funcs g]
      have untouched' : ∀ g ∈ rest, Q'.funcData g = P.funcData g := by
        intro g member
        have differ : g ≠ first := by
          rintro rfl
          exact nodup.1 member
        rw [others differ, untouched g (by simp [member])]
      obtain ⟨globals, main, after⟩ := ih nodup.2 same' untouched'
      simp only [List.foldl_cons, runFunction, here]
      refine ⟨globals, main, fun g => ?_⟩
      refine (after g).trans ?_
      by_cases isFirst : g = first
      · subst isFirst
        simp [nodup.1, self, found]
      · simp [isFirst, others isFirst]

theorem run_spec (wellFormed : P.WellFormed) :
    (run P).globals = P.globals ∧ (run P).mainFunction = P.mainFunction ∧
      ∀ g, (run P).funcData g =
        if g ∈ P.functionLayout then (P.funcData g).map (runOn P) else P.funcData g :=
  foldl_funcData P.functionLayout wellFormed.layout_nodup ⟨rfl, fun _ => rfl⟩ fun _ _ => rfl

/-- The functions of the rewritten program. -/
theorem run_funcData (wellFormed : P.WellFormed) (data : P.funcData f = some F) :
    ∃ F', (run P).funcData f = some F' ∧ Tailed (siteIn P f) F F' := by
  have here := (run_spec wellFormed).2.2 f
  have sites : siteIn P f = fun inst => f ∈ P.functionLayout && isSite P F inst := by
    funext inst
    simp [siteIn, data]
  by_cases laidOut : f ∈ P.functionLayout
  · refine ⟨runOn P F, by simpa [laidOut, data] using here, ?_⟩
    simpa [sites, laidOut] using tailed_runOn P (wellFormed.function data).1
  · refine ⟨F, by simpa [laidOut, data] using here, ?_⟩
    simpa [sites, laidOut] using Tailed.refl F

end Program

end AnonCompiler.Opt.TailCallElim
