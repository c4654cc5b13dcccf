import AnonCompiler.Frontend.ConstEval

/-!
# What translating a constant leaves as it was

Translating a constant adds values to the arenas and leaves what was there (`Grew`).  Inside
a function `&&` and `||` add two blocks and a branch to the current block while they
translate the right operand (`Detour`), and remove them when both operands are constants.
-/

set_option autoImplicit false

namespace AnonCompiler.Frontend.AstGen

open AnonCompiler.Ir (BasicBlock BinaryOp Layout truth)

/-- The handle belongs to the arenas. -/
def Known (ctx : AstGenContext) : Inst → Prop
  | .local id => id < ctx.nextInst
  | .global id => id < ctx.nextGlobal

/-- The handle stands for an integer. -/
structure Holds (ctx : AstGenContext) (val : Inst) (v : BitVec 32) : Prop where
  known : Known ctx val
  isInteger : ctx.instKind val = some (.integer v)

/-- Values have been added, and nothing else has changed but the value stack. -/
structure Grew (ctx ctx' : AstGenContext) : Prop where
  symbolTable : ctx'.symbolTable = ctx.symbolTable
  currBb : ctx'.currBb = ctx.currBb
  bbs : ctx'.layout.bbs = ctx.layout.bbs
  placed : ∀ bb ∈ ctx.layout.bbs, ctx'.layout.insts bb = ctx.layout.insts bb
  parent : ∀ inst, ctx'.layout.parent inst = ctx.layout.parent inst
  nextInst : ctx.nextInst ≤ ctx'.nextInst
  insts : ∀ id < ctx.nextInst, ctx'.insts id = ctx.insts id
  nextGlobal : ctx.nextGlobal ≤ ctx'.nextGlobal
  globals : ∀ id < ctx.nextGlobal, ctx'.globals id = ctx.globals id
  nextBb : ctx.nextBb ≤ ctx'.nextBb

/-- A block to which instructions can be added is current. -/
structure Open (ctx : AstGenContext) (bb : BasicBlock) : Prop where
  currBb : ctx.currBb = some bb
  placed : bb ∈ ctx.layout.bbs
  isOpen : ctx.isCompleteBb = some false
  bbs_lt : ∀ b ∈ ctx.layout.bbs, b < ctx.nextBb
  parent_lt : ∀ {inst b}, ctx.layout.parent inst = some b → inst < ctx.nextInst
  insts_lt : ∀ b ∈ ctx.layout.bbs, ∀ inst ∈ ctx.layout.insts b, inst < ctx.nextInst

variable {ctx ctx' base : AstGenContext} {val : Inst} {v : BitVec 32} {bb : BasicBlock}

namespace Grew

theorem refl (ctx : AstGenContext) : Grew ctx ctx :=
  ⟨rfl, rfl, rfl, fun _ _ => rfl, fun _ => rfl, le_rfl, fun _ _ => rfl, le_rfl, fun _ _ => rfl,
    le_rfl⟩

theorem trans {ctx'' : AstGenContext} (first : Grew ctx ctx') (second : Grew ctx' ctx'') :
    Grew ctx ctx'' where
  symbolTable := second.symbolTable.trans first.symbolTable
  currBb := second.currBb.trans first.currBb
  bbs := second.bbs.trans first.bbs
  placed := fun bb member =>
    (second.placed bb (first.bbs ▸ member)).trans (first.placed bb member)
  parent := fun inst => (second.parent inst).trans (first.parent inst)
  nextInst := first.nextInst.trans second.nextInst
  insts := fun id old =>
    (second.insts id (old.trans_le first.nextInst)).trans (first.insts id old)
  nextGlobal := first.nextGlobal.trans second.nextGlobal
  globals := fun id old =>
    (second.globals id (old.trans_le first.nextGlobal)).trans (first.globals id old)
  nextBb := first.nextBb.trans second.nextBb

/-- The value stack does not count. -/
theorem withStack (grew : Grew ctx ctx') (stack stack' : List Inst) :
    Grew { ctx with valStack := stack } { ctx' with valStack := stack' } := by
  obtain ⟨h₁, h₂, h₃, h₄, h₅, h₆, h₇, h₈, h₉, h₁₀⟩ := grew
  exact ⟨h₁, h₂, h₃, h₄, h₅, h₆, h₇, h₈, h₉, h₁₀⟩

theorem newLocalValue (ctx : AstGenContext) (kind : InstKind) :
    Grew ctx (ctx.newLocalValue kind) where
  symbolTable := rfl
  currBb := rfl
  bbs := rfl
  placed := fun _ _ => rfl
  parent := fun _ => rfl
  nextInst := Nat.le_succ _
  insts := fun _ old => Function.update_of_ne (Nat.ne_of_lt old) _ _
  nextGlobal := le_rfl
  globals := fun _ _ => rfl
  nextBb := le_rfl

theorem newGlobalValue (ctx : AstGenContext) (kind : InstKind) :
    Grew ctx (ctx.newGlobalValue kind) where
  symbolTable := rfl
  currBb := rfl
  bbs := rfl
  placed := fun _ _ => rfl
  parent := fun _ => rfl
  nextInst := le_rfl
  insts := fun _ _ => rfl
  nextGlobal := Nat.le_succ _
  globals := fun _ old => Function.update_of_ne (Nat.ne_of_lt old) _ _
  nextBb := le_rfl

theorem known (grew : Grew ctx ctx') (known : Known ctx val) : Known ctx' val := by
  cases val with
  | «local» id => exact known.trans_le grew.nextInst
  | global id => exact known.trans_le grew.nextGlobal

theorem instKind (grew : Grew ctx ctx') (known : Known ctx val) :
    ctx'.instKind val = ctx.instKind val := by
  cases val with
  | «local» id => exact grew.insts id known
  | global id => exact grew.globals id known

theorem holds (grew : Grew ctx ctx') (holds : Holds ctx val v) : Holds ctx' val v :=
  ⟨grew.known holds.known, (grew.instKind holds.known).trans holds.isInteger⟩

end Grew

theorem isCompleteBb_congr (currBb : ctx'.currBb = ctx.currBb)
    (bbs : ∀ b, ctx.currBb = some b → (b ∈ ctx'.layout.bbs ↔ b ∈ ctx.layout.bbs))
    (insts : ∀ b, ctx.currBb = some b → b ∈ ctx.layout.bbs →
      ctx'.layout.insts b = ctx.layout.insts b ∧
      ∀ inst ∈ ctx.layout.insts b, ctx'.insts inst = ctx.insts inst) :
    ctx'.isCompleteBb = ctx.isCompleteBb := by
  unfold AstGenContext.isCompleteBb
  rw [currBb]
  cases current : ctx.currBb with
  | none => rfl
  | some b =>
    simp only [Option.bind_eq_bind, Option.bind_some, Layout.containsBb, bbs b current]
    by_cases member : b ∈ ctx.layout.bbs
    · obtain ⟨same, kinds⟩ := insts b current member
      rw [same]
      cases isLast : (ctx.layout.insts b).getLast? with
      | none => rfl
      | some inst =>
        simp only [kinds inst (List.mem_of_getLast? isLast)]
        rfl
    · simp only [member, decide_false, Bool.false_eq_true, if_false]

/-- A new instruction stands at the end of the block. -/
def withInst (ctx : AstGenContext) (bb : BasicBlock) (kind : InstKind) : AstGenContext :=
  { ctx.newLocalValue kind with
    layout := ctx.layout.addInst bb ctx.nextInst (· ++ [ctx.nextInst]) }

/-- A new block stands behind the others. -/
def withBlock (ctx : AstGenContext) (params : Nat) : AstGenContext :=
  { ctx.newBasicBlock params with layout := ctx.layout.addBb ctx.nextBb (· ++ [ctx.nextBb]) }

namespace Open

section

variable (isOpen : Open ctx bb)
include isOpen

theorem grow (grew : Grew ctx ctx') : Open ctx' bb where
  currBb := grew.currBb.trans isOpen.currBb
  placed := grew.bbs ▸ isOpen.placed
  isOpen := by
    rw [← isOpen.isOpen]
    refine isCompleteBb_congr grew.currBb (fun b _ => by rw [grew.bbs]) fun b _ member =>
      ⟨grew.placed b member, ?_⟩
    exact fun inst inside => grew.insts inst (isOpen.insts_lt b member inst inside)
  bbs_lt := fun b member => (isOpen.bbs_lt b (grew.bbs ▸ member)).trans_le grew.nextBb
  parent_lt := fun {inst b} isParent =>
    (isOpen.parent_lt ((grew.parent inst).symm.trans isParent)).trans_le grew.nextInst
  insts_lt := fun b member inst inside => by
    rw [grew.bbs] at member
    rw [grew.placed b member] at inside
    exact (isOpen.insts_lt b member inst inside).trans_le grew.nextInst

theorem unlessComplete (translate : Translation) :
    unlessComplete translate ctx = translate ctx := by
  simp [AstGen.unlessComplete, isOpen.isOpen]

theorem pushInst (kind : InstKind) :
    (ctx.newLocalValue kind).pushInst ctx.nextInst = some (withInst ctx bb kind) := by
  have isOpen' := (isOpen.grow (.newLocalValue ctx kind)).isOpen
  have noParent : ctx.layout.parent ctx.nextInst = none := by
    by_contra isSome
    obtain ⟨b, isParent⟩ := Option.ne_none_iff_exists'.mp isSome
    exact Nat.lt_irrefl _ (isOpen.parent_lt isParent)
  have inserted : ctx.layout.insertInst bb ctx.nextInst =
      some (ctx.layout.addInst bb ctx.nextInst (· ++ [ctx.nextInst])) := by
    simp [Layout.insertInst, Layout.containsBb, isOpen.placed, noParent]
  have current : (ctx.newLocalValue kind).currBb = some bb := isOpen.currBb
  have layout : (ctx.newLocalValue kind).layout = ctx.layout := rfl
  simp [AstGenContext.pushInst, current, isOpen', layout, inserted, withInst]

/-- Behind a terminator another block becomes current. -/
theorem setCurrBb {kind : InstKind} (terminates : kind.isTerminator) (next : BasicBlock) :
    (withInst ctx bb kind).setCurrBb next =
      some ({ withInst ctx bb kind with currBb := some next }, some bb) := by
  have current : (withInst ctx bb kind).currBb = some bb := isOpen.currBb
  have complete : (withInst ctx bb kind).isCompleteBb = some true := by
    simp [AstGenContext.isCompleteBb, isOpen.currBb, withInst, Layout.addInst, Layout.containsBb,
      isOpen.placed, AstGenContext.newLocalValue, terminates]
  simp [AstGenContext.setCurrBb, current, complete]

theorem registerBb (params : Nat) :
    (ctx.newBasicBlock params).registerBb ctx.nextBb = some (withBlock ctx params) := by
  have fresh : ctx.nextBb ∉ ctx.layout.bbs := fun member =>
    Nat.lt_irrefl _ (isOpen.bbs_lt _ member)
  simp [AstGenContext.registerBb, AstGenContext.newBasicBlock, Layout.pushBbBack, Layout.containsBb,
    fresh, withBlock]

theorem addBlock (params : Nat) : Open (withBlock ctx params) bb := by
  have kept : ∀ b ∈ ctx.layout.bbs, Function.update ctx.layout.insts ctx.nextBb [] b =
      ctx.layout.insts b := fun b member =>
    Function.update_of_ne (Nat.ne_of_lt (isOpen.bbs_lt b member)) _ _
  have insts : ∀ id < ctx.nextInst, (ctx.newBasicBlock params).insts id = ctx.insts id := by
    intro id old
    exact if_neg fun new => Nat.not_le.mpr old new.1
  refine ⟨isOpen.currBb, List.mem_append_left _ isOpen.placed, ?_, ?_, ?_, ?_⟩
  · rw [← isOpen.isOpen]
    refine isCompleteBb_congr rfl (fun b isCurrent => ?_) fun b _ member =>
      ⟨kept b member, fun inst inside => insts inst (isOpen.insts_lt b member inst inside)⟩
    obtain rfl := Option.some.inj (isOpen.currBb.symm.trans isCurrent)
    exact iff_of_true (List.mem_append_left _ isOpen.placed) isOpen.placed
  · intro b member
    rcases List.mem_append.mp member with old | new
    · exact Nat.lt_succ_of_lt (isOpen.bbs_lt b old)
    · obtain rfl := List.mem_singleton.mp new
      exact Nat.lt_succ_self _
  · intro inst b isParent
    exact (isOpen.parent_lt isParent).trans_le (Nat.le_add_right _ _)
  · intro b member inst inside
    change inst ∈ Function.update ctx.layout.insts ctx.nextBb [] b at inside
    rcases List.mem_append.mp member with old | new
    · rw [kept b old] at inside
      exact (isOpen.insts_lt b old inst inside).trans_le (Nat.le_add_right _ _)
    · obtain rfl := List.mem_singleton.mp new
      rw [Function.update_self] at inside
      exact absurd inside List.not_mem_nil

/-- The default return stands at the end of the block. -/
theorem returnDefault : ∃ mid kind, Grew ctx mid ∧
    mid.valStack = ctx.valStack ∧ ctx.returnDefault = some (withInst mid bb kind) := by
  cases isTy : ctx.retTy with
  | unit =>
    refine ⟨ctx, .ret none, .refl ctx, rfl, ?_⟩
    rw [AstGenContext.returnDefault, isTy]
    exact isOpen.pushInst _
  | int32 =>
    refine ⟨_, .ret (some (.local ctx.nextInst)), .newLocalValue ctx (.integer 0), rfl, ?_⟩
    rw [AstGenContext.returnDefault, isTy]
    exact (isOpen.grow (.newLocalValue ctx _)).pushInst _
  | float32 =>
    refine ⟨_, .ret (some (.local ctx.nextInst)), .newLocalValue ctx (.float 0), rfl, ?_⟩
    rw [AstGenContext.returnDefault, isTy]
    exact (isOpen.grow (.newLocalValue ctx _)).pushInst _

/-- A block that is left open is closed with the default return. -/
theorem setCurrBb_open (next : BasicBlock) : ∃ mid kind, Grew ctx mid ∧
    mid.valStack = ctx.valStack ∧
    ctx.setCurrBb next = some ({ withInst mid bb kind with currBb := some next }, some bb) := by
  obtain ⟨mid, kind, grew, stack, returns⟩ := isOpen.returnDefault
  refine ⟨mid, kind, grew, stack, ?_⟩
  have current : (withInst mid bb kind).currBb = some bb := grew.currBb.trans isOpen.currBb
  simp [AstGenContext.setCurrBb, isOpen.currBb, isOpen.isOpen, returns, current]

end

end Open

/-! ## The detour through the block of the right operand -/

/-- Two blocks have been added, the branch stands at the end of the block left, and the
instructions `behind` in the block entered. -/
structure Detour (base ctx : AstGenContext) (bb rhsBb mergeBb : BasicBlock) (br : Nat)
    (behind : List Nat) : Prop where
  symbolTable : ctx.symbolTable = base.symbolTable
  bbs : ctx.layout.bbs = base.layout.bbs ++ [rhsBb, mergeBb]
  fresh : ∀ b ∈ base.layout.bbs, b ≠ rhsBb ∧ b ≠ mergeBb
  distinct : rhsBb ≠ mergeBb
  atEnd : ctx.layout.insts bb = base.layout.insts bb ++ [br]
  others : ∀ b ∈ base.layout.bbs, b ≠ bb → ctx.layout.insts b = base.layout.insts b
  right : ctx.layout.insts rhsBb = behind
  merge : ctx.layout.insts mergeBb = []
  parent : ∀ inst, ctx.layout.parent inst = if inst = br then some bb
    else if inst ∈ behind then some rhsBb else base.layout.parent inst
  new : ∀ inst ∈ br :: behind, base.nextInst ≤ inst ∧ inst < ctx.nextInst ∧ (ctx.insts inst).isSome
  notBehind : br ∉ behind
  nextInst : base.nextInst ≤ ctx.nextInst
  insts : ∀ id < base.nextInst, ctx.insts id = base.insts id
  nextGlobal : base.nextGlobal ≤ ctx.nextGlobal
  globals : ∀ id < base.nextGlobal, ctx.globals id = base.globals id
  nextBb : base.nextBb ≤ ctx.nextBb

/-- The context in which the right operand is translated. -/
def entered (base : AstGenContext) (bb : BasicBlock) (kind : InstKind) : AstGenContext :=
  { withInst (withBlock (withBlock base 0) 1) bb kind with currBb := some base.nextBb }

variable {rhsBb mergeBb : BasicBlock} {br : Nat} {behind : List Nat}

theorem Open.detour (isOpen : Open base bb) (kind : InstKind) :
    Detour base (entered base bb kind) bb base.nextBb (base.nextBb + 1) (base.nextInst + 1) [] where
  symbolTable := rfl
  bbs := by simp [entered, withInst, withBlock, AstGenContext.newBasicBlock, Layout.addBb,
    Layout.addInst]
  fresh := fun b member => ⟨Nat.ne_of_lt (isOpen.bbs_lt b member),
    Nat.ne_of_lt (Nat.lt_succ_of_lt (isOpen.bbs_lt b member))⟩
  distinct := Nat.ne_of_lt (Nat.lt_succ_self _)
  atEnd := by
    have bb_lt := isOpen.bbs_lt bb isOpen.placed
    simp [entered, withInst, withBlock, AstGenContext.newBasicBlock, Layout.addBb, Layout.addInst,
      Function.update_of_ne (Nat.ne_of_lt bb_lt),
      Function.update_of_ne (Nat.ne_of_lt (Nat.lt_succ_of_lt bb_lt))]
  others := fun b member other => by
    have b_lt := isOpen.bbs_lt b member
    simp [entered, withInst, withBlock, AstGenContext.newBasicBlock, Layout.addBb, Layout.addInst,
      Function.update_of_ne other, Function.update_of_ne (Nat.ne_of_lt b_lt),
      Function.update_of_ne (Nat.ne_of_lt (Nat.lt_succ_of_lt b_lt))]
  right := by
    have bb_lt := isOpen.bbs_lt bb isOpen.placed
    simp [entered, withInst, withBlock, AstGenContext.newBasicBlock, Layout.addBb, Layout.addInst,
      Function.update_of_ne (Nat.ne_of_gt bb_lt)]
  merge := by
    have bb_lt := isOpen.bbs_lt bb isOpen.placed
    simp [entered, withInst, withBlock, AstGenContext.newBasicBlock, Layout.addBb, Layout.addInst,
      Function.update_of_ne (Nat.ne_of_gt (Nat.lt_succ_of_lt bb_lt))]
  parent := fun inst => by
    simp [entered, withInst, withBlock, AstGenContext.newBasicBlock, Layout.addBb, Layout.addInst,
      Function.update_apply]
  new := fun inst member => by
    obtain rfl := List.mem_singleton.mp member
    simp [entered, withInst, withBlock, AstGenContext.newBasicBlock, AstGenContext.newLocalValue]
  notBehind := List.not_mem_nil
  nextInst := by simp [entered, withInst, withBlock, AstGenContext.newBasicBlock,
    AstGenContext.newLocalValue]; omega
  insts := fun id old => by
    have ne : id ≠ base.nextInst + 1 := Nat.ne_of_lt (Nat.lt_succ_of_lt old)
    have notNew : ¬ base.nextInst ≤ id := Nat.not_le.mpr old
    simp [entered, withInst, withBlock, AstGenContext.newBasicBlock, AstGenContext.newLocalValue,
      Function.update_of_ne ne, notNew]
  nextGlobal := le_rfl
  globals := fun _ _ => rfl
  nextBb := Nat.le_add_right base.nextBb 2

/-- The block of the right operand is empty. -/
theorem Open.entered (isOpen : Open base bb) (kind : InstKind) :
    Open (entered base bb kind) base.nextBb := by
  have detour := isOpen.detour kind
  refine ⟨rfl, ?_, ?_, ?_, ?_, ?_⟩
  · rw [detour.bbs]
    exact List.mem_append_right _ List.mem_cons_self
  · have member : (AstGen.entered base bb kind).layout.containsBb base.nextBb := by
      simp [Layout.containsBb, detour.bbs]
    have current : (AstGen.entered base bb kind).currBb = some base.nextBb := rfl
    simp [AstGenContext.isCompleteBb, current, member, detour.right]
  · intro b member
    rw [detour.bbs] at member
    have nextBb : (AstGen.entered base bb kind).nextBb = base.nextBb + 2 := rfl
    rw [nextBb]
    rcases List.mem_append.mp member with old | new
    · exact Nat.lt_of_lt_of_le (isOpen.bbs_lt b old) (Nat.le_add_right ..)
    · simp only [List.mem_cons, List.not_mem_nil, or_false] at new
      rcases new with rfl | rfl
      · exact Nat.lt_add_of_pos_right (by decide)
      · exact Nat.lt_succ_self _
  · intro inst b isParent
    rw [detour.parent] at isParent
    split at isParent
    · next isBr => exact isBr ▸ (detour.new _ List.mem_cons_self).2.1
    · exact (isOpen.parent_lt (by simpa using isParent)).trans_le detour.nextInst
  · intro b member inst inside
    rw [detour.bbs] at member
    rcases List.mem_append.mp member with old | new
    · by_cases left : b = bb
      · subst left
        rw [detour.atEnd] at inside
        rcases List.mem_append.mp inside with inside | isBr
        · exact (isOpen.insts_lt b old inst inside).trans_le detour.nextInst
        · obtain rfl := List.mem_singleton.mp isBr
          exact (detour.new _ List.mem_cons_self).2.1
      · rw [detour.others b old left] at inside
        exact (isOpen.insts_lt b old inst inside).trans_le detour.nextInst
    · simp only [List.mem_cons, List.not_mem_nil, or_false] at new
      rcases new with rfl | rfl
      · rw [detour.right] at inside
        exact absurd inside List.not_mem_nil
      · rw [detour.merge] at inside
        exact absurd inside List.not_mem_nil

/-- The detour goes on while values are added. -/
theorem Detour.grow (detour : Detour base ctx bb rhsBb mergeBb br behind)
    (placed : bb ∈ base.layout.bbs)
    (grew : Grew ctx ctx') : Detour base ctx' bb rhsBb mergeBb br behind := by
  have inLayout : ∀ b, b ∈ base.layout.bbs ∨ b = rhsBb ∨ b = mergeBb → b ∈ ctx.layout.bbs := by
    intro b member
    rw [detour.bbs]
    simpa using member
  have rhs := grew.placed rhsBb (inLayout _ (.inr (.inl rfl)))
  have merge := grew.placed mergeBb (inLayout _ (.inr (.inr rfl)))
  refine ⟨grew.symbolTable.trans detour.symbolTable, grew.bbs.trans detour.bbs, detour.fresh,
    detour.distinct, (grew.placed bb (inLayout _ (.inl placed))).trans detour.atEnd, ?_,
    rhs.trans detour.right, merge.trans detour.merge,
    fun inst => (grew.parent inst).trans (detour.parent inst), ?_, detour.notBehind,
    detour.nextInst.trans grew.nextInst, ?_, detour.nextGlobal.trans grew.nextGlobal, ?_,
    detour.nextBb.trans grew.nextBb⟩
  · intro b member other
    exact (grew.placed b (inLayout _ (.inl member))).trans (detour.others b member other)
  · intro inst member
    obtain ⟨new, known, isSome⟩ := detour.new inst member
    exact ⟨new, known.trans_le grew.nextInst, by rwa [grew.insts inst known]⟩
  · intro id old
    exact (grew.insts id (old.trans_le detour.nextInst)).trans (detour.insts id old)
  · intro id old
    exact (grew.globals id (old.trans_le detour.nextGlobal)).trans (detour.globals id old)

/-- Which block is current does not count. -/
theorem Detour.current (detour : Detour base ctx bb rhsBb mergeBb br behind)
    (next : Option BasicBlock) :
    Detour base { ctx with currBb := next } bb rhsBb mergeBb br behind := by
  obtain ⟨h₁, h₂, h₃, h₄, h₅, h₆, h₇, h₈, h₉, h₁₀, h₁₁, h₁₂, h₁₃, h₁₄, h₁₅, h₁₆⟩ := detour
  exact ⟨h₁, h₂, h₃, h₄, h₅, h₆, h₇, h₈, h₉, h₁₀, h₁₁, h₁₂, h₁₃, h₁₄, h₁₅, h₁₆⟩

/-- An instruction is added behind the branch. -/
theorem Detour.append (detour : Detour base ctx bb rhsBb mergeBb br [])
    (placed : bb ∈ base.layout.bbs) (kind : InstKind) :
    Detour base (withInst ctx rhsBb kind) bb rhsBb mergeBb br [ctx.nextInst] := by
  have br_lt := (detour.new br List.mem_cons_self).2.1
  refine ⟨detour.symbolTable, detour.bbs, detour.fresh, detour.distinct, ?_, ?_, ?_, ?_, ?_, ?_, ?_,
    detour.nextInst.trans (Nat.le_succ _), ?_, detour.nextGlobal, detour.globals, detour.nextBb⟩
  · exact (Function.update_of_ne (detour.fresh bb placed).1 _ _).trans detour.atEnd
  · intro b member other
    exact (Function.update_of_ne (detour.fresh b member).1 _ _).trans (detour.others b member other)
  · refine (Function.update_self ..).trans ?_
    rw [detour.right]
    rfl
  · exact (Function.update_of_ne detour.distinct.symm _ _).trans detour.merge
  · intro inst
    simp only [withInst, Layout.addInst, Function.update_apply, detour.parent, List.mem_singleton,
      List.not_mem_nil, if_false]
    by_cases isNew : inst = ctx.nextInst
    · rw [if_pos isNew, if_pos isNew, if_neg (isNew ▸ Nat.ne_of_gt br_lt)]
    · rw [if_neg isNew, if_neg isNew]
  · intro inst member
    rcases List.mem_cons.mp member with rfl | isNew
    · refine ⟨(detour.new inst List.mem_cons_self).1, br_lt.trans (Nat.lt_succ_self _), ?_⟩
      rw [show (withInst ctx rhsBb kind).insts inst = ctx.insts inst from
        Function.update_of_ne (Nat.ne_of_lt br_lt) _ _]
      exact (detour.new inst List.mem_cons_self).2.2
    · obtain rfl := List.mem_singleton.mp isNew
      refine ⟨detour.nextInst, Nat.lt_succ_self _, ?_⟩
      simp [withInst, AstGenContext.newLocalValue]
  · simpa using Nat.ne_of_lt br_lt
  · intro id old
    exact (Function.update_of_ne (Nat.ne_of_lt (old.trans_le detour.nextInst)) _ _).trans
      (detour.insts id old)

/-- The block is gone, with the instructions in it. -/
def withoutBb (ctx : AstGenContext) (bb : BasicBlock) (inside : List Nat) : AstGenContext :=
  { ctx with
    layout := { ctx.layout with
      bbs := ctx.layout.bbs.filter (· ≠ bb)
      parent := fun inst => if inst ∈ inside then none else ctx.layout.parent inst }
    insts := fun id => if id ∈ inside then none else ctx.insts id }

theorem removeBb_eq (behind : List Nat) (placed : bb ∈ ctx.layout.bbs)
    (inside : ctx.layout.insts bb = behind)
    (known : ∀ inst ∈ behind, (ctx.insts inst).isSome) :
    ctx.removeBb bb = some (withoutBb ctx bb behind) := by
  have removed : ctx.layout.removeBasicblock bb = some (withoutBb ctx bb behind).layout := by
    rw [Layout.removeBasicblock, inside]
    exact if_pos (by simpa [Layout.containsBb] using placed)
  have known' : (behind.all fun inst => (ctx.insts inst).isSome) = true :=
    List.all_eq_true.mpr known
  rw [AstGenContext.removeBb, removed, inside]
  exact if_pos known'

/-- The last instruction of the current block is gone. -/
def withoutLast (ctx : AstGenContext) (bb : BasicBlock) (rest : List Nat) (inst : Nat) :
    AstGenContext :=
  { ctx with
    layout := { ctx.layout with
      insts := Function.update ctx.layout.insts bb rest
      parent := Function.update ctx.layout.parent inst none }
    insts := Function.update ctx.insts inst none }

theorem removeInst_eq {rest : List Nat} {inst : Nat} (currBb : ctx.currBb = some bb)
    (placed : bb ∈ ctx.layout.bbs) (parent : ctx.layout.parent inst = some bb)
    (inside : ctx.layout.insts bb = rest ++ [inst]) (other : inst ∉ rest)
    (known : (ctx.insts inst).isSome) : ctx.removeInst inst =
      some (withoutLast ctx bb rest inst) := by
  obtain ⟨kind, isKind⟩ := Option.isSome_iff_exists.mp known
  have erased : (rest ++ [inst]).erase inst = rest := by
    rw [List.erase_append_right _ other]
    simp
  have removed : ctx.layout.removeInst bb inst = some (withoutLast ctx bb rest inst).layout := by
    rw [Layout.removeInst, inside, erased]
    exact if_pos (by simp [Layout.containsBb, placed, parent])
  simp only [AstGenContext.removeInst, currBb, isKind, removed, Option.bind_eq_bind,
    Option.bind_some]
  rw [withoutLast, currBb]

/-- The way back: the branch and the two blocks are removed. -/
theorem Detour.leave (detour : Detour base ctx bb rhsBb mergeBb br behind)
    (isOpen : Open base bb) (currBb : ctx.currBb = some bb) :
    ∃ left right back, ctx.removeInst br = some left ∧ left.removeBb rhsBb = some right ∧
      right.removeBb mergeBb = some back ∧ Grew base back ∧ back.valStack = ctx.valStack := by
  have notOld : br ∉ base.layout.insts bb := fun inside => Nat.lt_irrefl _
    ((isOpen.insts_lt bb isOpen.placed br inside).trans_le (detour.new br List.mem_cons_self).1)
  obtain ⟨notRhs, notMerge⟩ := detour.fresh bb isOpen.placed
  have removed :=
    removeInst_eq currBb (by rw [detour.bbs]; exact List.mem_append_left _ isOpen.placed)
    ((detour.parent br).trans (if_pos rfl)) detour.atEnd notOld
    (detour.new br List.mem_cons_self).2.2
  have removedRhs : (withoutLast ctx bb (base.layout.insts bb) br).removeBb rhsBb = _ :=
    removeBb_eq behind (by simp [withoutLast, detour.bbs])
      ((Function.update_of_ne notRhs.symm _ _).trans detour.right) fun inst member => by
        have other : inst ≠ br := fun isBr => detour.notBehind (isBr ▸ member)
        rw [withoutLast]
        dsimp only
        rw [Function.update_of_ne other]
        exact (detour.new inst (List.mem_cons_of_mem _ member)).2.2
  have removedMerge :
    (withoutBb (withoutLast ctx bb (base.layout.insts bb) br) rhsBb behind).removeBb
      mergeBb = _ :=
    removeBb_eq [] (by simp [withoutLast, withoutBb, detour.bbs, detour.distinct.symm])
      ((Function.update_of_ne notMerge.symm _ _).trans detour.merge) (by simp)
  have noParent : ∀ inst ∈ br :: behind, base.layout.parent inst = none := by
    intro inst member
    by_contra isSome
    obtain ⟨b, isParent⟩ := Option.ne_none_iff_exists'.mp isSome
    exact Nat.lt_irrefl _ ((isOpen.parent_lt isParent).trans_le (detour.new inst member).1)
  refine ⟨_, _, _, removed, removedRhs, removedMerge, ?_, rfl⟩
  constructor
  · exact detour.symbolTable
  · exact currBb.trans isOpen.currBb.symm
  · have old : base.layout.bbs.filter (fun b => b ≠ rhsBb && b ≠ mergeBb) = base.layout.bbs := by
      rw [List.filter_eq_self]
      intro b member
      simp [detour.fresh b member]
    simpa [withoutBb, withoutLast, detour.bbs, Bool.and_comm] using old
  · intro b member
    by_cases left : b = bb
    · subst left
      exact Function.update_self ..
    · exact (Function.update_of_ne left _ _).trans (detour.others b member left)
  · intro inst
    simp only [withoutBb, withoutLast, List.not_mem_nil, if_false, Function.update_apply,
      detour.parent]
    by_cases isBehind : inst ∈ behind
    · rw [if_pos isBehind, noParent inst (List.mem_cons_of_mem _ isBehind)]
    · rw [if_neg isBehind]
      by_cases isBr : inst = br
      · rw [if_pos isBr, isBr, noParent br List.mem_cons_self]
      · rw [if_neg isBr, if_neg isBr, if_neg isBehind]
  · exact detour.nextInst
  · intro id old
    have notNew : ∀ inst ∈ br :: behind, id ≠ inst := fun inst member isInst =>
      Nat.not_le.mpr old (isInst ▸ (detour.new inst member).1)
    have notBr : id ≠ br := notNew br List.mem_cons_self
    have notBehind : id ∉ behind := fun member => notNew id (List.mem_cons_of_mem _ member) rfl
    simpa [withoutBb, withoutLast, notBehind, Function.update_of_ne notBr] using detour.insts id old
  · exact detour.nextGlobal
  · exact detour.globals
  · exact detour.nextBb

end AnonCompiler.Frontend.AstGen
