import AnonCompiler.Ir.Builder

/-!
# Replacing a value by another

`visit_and_replace` of `opt/utils.rs` on the arena, with the sets `used_by` that it reads
and that the builder keeps.  Every user is rebuilt by hand, one case for each kind.  A
branch whose condition is a constant after the replacement becomes a jump; the jump keeps
the arguments of its arm as they were, so an arm that names the replaced value goes on
naming it.
-/

set_option autoImplicit false

namespace AnonCompiler.Opt

open Ir Ir.ArenaState

/-- The operand in the place of `x`. -/
def swapped (rep repWith x : Inst) : Inst := if x = rep then repWith else x

/-- The order in which a set of users is walked. -/
structure UserOrder where
  list : Finset Inst → List Inst
  nodup : ∀ users, (list users).Nodup
  mem_iff : ∀ users u, u ∈ list users ↔ u ∈ users

/-- `visit_and_replace_single`; the kinds without operands are unreachable. -/
def visitAndReplaceSingle (retTy : Function → Option Ty) (rep repWith usedBy : Inst)
    (s : ArenaState) : Option ArenaState :=
  (s.instData usedBy).bind fun user =>
    match user.data.kind with
    | .zeroInit | .undef | .blockArgRef _ | .alloc | .globalAlloc _ => none
    | .integer _ | .float _ => some s
    | .aggregate value =>
      s.rebuild retTy usedBy user.data.ty (.aggregate (value.map (swapped rep repWith)))
    | .cast _ => s.rebuild retTy usedBy user.data.ty (.cast repWith)
    | .load _ => s.rebuild retTy usedBy user.data.ty (.load repWith)
    | .store src dest =>
      s.rebuild retTy usedBy user.data.ty
        (.store (swapped rep repWith src) (swapped rep repWith dest))
    | .memZero dest (.const bytes) =>
      s.rebuild retTy usedBy user.data.ty (.memZero (swapped rep repWith dest) (.const bytes))
    | .memZero dest (.value len) =>
      s.rebuild retTy usedBy user.data.ty
        (.memZero (swapped rep repWith dest) (.value (swapped rep repWith len)))
    | .getElemPtr base offsets =>
      if base = rep ∨ rep ∈ offsets then
        s.rebuild retTy usedBy user.data.ty
          (.getElemPtr (swapped rep repWith base) (offsets.map (swapped rep repWith)))
      else some s
    | .binary op lhs rhs =>
      s.rebuild retTy usedBy user.data.ty
        (.binary op (swapped rep repWith lhs) (swapped rep repWith rhs))
    | .select cond ifTrue ifFalse =>
      s.rebuild retTy usedBy user.data.ty
        (.select (swapped rep repWith cond) (swapped rep repWith ifTrue)
          (swapped rep repWith ifFalse))
    | .branch cond tTarget tArgs fTarget fArgs =>
      match s.kindOf (swapped rep repWith cond) with
      | some (.integer value) =>
        if value = 0 then s.rebuild retTy usedBy user.data.ty (.jump fTarget fArgs)
        else s.rebuild retTy usedBy user.data.ty (.jump tTarget tArgs)
      | some _ =>
        s.rebuild retTy usedBy user.data.ty
          (.branch (swapped rep repWith cond) tTarget (tArgs.map (swapped rep repWith)) fTarget
            (fArgs.map (swapped rep repWith)))
      | none => none
    | .jump target args =>
      s.rebuild retTy usedBy user.data.ty (.jump target (args.map (swapped rep repWith)))
    | .call callee args =>
      s.rebuild retTy usedBy user.data.ty (.call callee (args.map (swapped rep repWith)))
    | .tailCall callee args =>
      s.rebuild retTy usedBy user.data.ty (.tailCall callee (args.map (swapped rep repWith)))
    | .ret value =>
      if value = some rep then s.rebuild retTy usedBy user.data.ty (.ret (some repWith))
      else some s
    | .fma acc lhs rhs =>
      s.rebuild retTy usedBy user.data.ty
        (.fma (swapped rep repWith acc) (swapped rep repWith lhs) (swapped rep repWith rhs))
    | .vectorSplat src =>
      s.rebuild retTy usedBy user.data.ty (.vectorSplat (swapped rep repWith src))
    | .vectorExtractElement src index =>
      s.rebuild retTy usedBy user.data.ty
        (.vectorExtractElement (swapped rep repWith src) (swapped rep repWith index))
    | .vectorInsertElement vector element index =>
      s.rebuild retTy usedBy user.data.ty
        (.vectorInsertElement (swapped rep repWith vector) (swapped rep repWith element)
          (swapped rep repWith index))
    | .vectorReduce src =>
      s.rebuild retTy usedBy user.data.ty (.vectorReduce (swapped rep repWith src))

def visitAndReplaceAll (retTy : Function → Option Ty) (rep repWith : Inst) :
    List Inst → ArenaState → Option ArenaState
  | [], s => some s
  | usedBy :: rest, s =>
    (visitAndReplaceSingle retTy rep repWith usedBy s).bind
      (visitAndReplaceAll retTy rep repWith rest)

/-- `visit_and_replace`: the users are listed before the first one is rebuilt. -/
def visitAndReplace (retTy : Function → Option Ty) (order : UserOrder) (rep repWith : Inst)
    (s : ArenaState) : Option ArenaState :=
  (s.instData rep).bind fun used =>
    visitAndReplaceAll retTy rep repWith (order.list used.usedBy) s

/-! ## What becomes of a user -/

/-- The arm a branch takes when its condition is a constant after the replacement. -/
def takenArm (s : ArenaState) (rep repWith : Inst) : InstKind → Option (BasicBlock × List Inst)
  | .branch cond tTarget tArgs fTarget fArgs =>
    match s.kindOf (swapped rep repWith cond) with
    | some (.integer value) => some (if value = 0 then (fTarget, fArgs) else (tTarget, tArgs))
    | _ => none
  | _ => none

/-- The kind that the code gives to a user. -/
def replaced (s : ArenaState) (rep repWith : Inst) (kind : InstKind) : InstKind :=
  match takenArm s rep repWith kind with
  | some (target, args) => .jump target args
  | none => kind.remapRefs (swapped rep repWith) id

/-- The kind of a user with the other value in all places. -/
def substituted (s : ArenaState) (rep repWith : Inst) (kind : InstKind) : InstKind :=
  match takenArm s rep repWith kind with
  | some (target, args) => .jump target (args.map (swapped rep repWith))
  | none => kind.remapRefs (swapped rep repWith) id

/-- The user is folded to a jump that passes the replaced value on. -/
def KeepsUse (s : ArenaState) (rep repWith u : Inst) : Prop :=
  ∃ used target args, s.insts u = some used ∧
    takenArm s rep repWith used.data.kind = some (target, args) ∧ rep ∈ args

/-- The other value stands in all places of the replaced one, and nothing else changes. -/
structure Substituted (s t : ArenaState) (rep repWith : Inst) : Prop where
  data : ∀ u, (t.instData u).map UsedInst.data = (s.instData u).map fun used =>
    if u.isGlobal = false ∧ rep ∈ used.data.kind.instUsage then
      { used.data with kind := substituted s rep repWith used.data.kind }
    else used.data
  unused : ∀ u, u.isGlobal = false → ¬ t.Reads u rep
  consistent : Consistent t
  layout : t.layout = s.layout
  blockParams : ∀ bb, t.blockParams bb = s.blockParams bb

/-! ## What the callers provide -/

/-- The instruction is local, it is what the builder makes of it, and its operands are other
instructions with data. -/
structure BuiltAs (retTy : Function → Option Ty) (s : ArenaState) (u : Inst) (data : InstData) :
    Prop where
  isLocal : u.isGlobal = false
  ty : s.resultTy retTy data.ty data.kind = some data.ty
  operands : ∀ v ∈ data.kind.instUsage, v ≠ u ∧ (s.instData v).isSome

/-- A value, and another one of its type that is not computed from it. -/
structure Replaceable (retTy : Function → Option Ty) (s : ArenaState) (rep repWith : Inst) :
    Prop where
  consistent : Consistent s
  fresh : Fresh s
  users : ∀ {u used}, s.insts u = some used → rep ∈ used.data.kind.instUsage →
    BuiltAs retTy s u used.data
  usersLocal : ∀ {u}, s.UsedBy rep u → u.isGlobal = false
  isLocal : rep.isGlobal = false
  found : (s.insts rep).isSome
  /-- Where the value is the lane of a vector, the other one is accepted as a lane too. -/
  lanes : ∀ {u used lanes}, s.insts u = some used → used.data.kind.laneIndex = some rep →
    s.laneConstant rep lanes = true → s.laneConstant repWith lanes = true
  sameTy : s.typeOf repWith = s.typeOf rep
  differ : repWith ≠ rep
  notUser : ¬ s.Reads repWith rep

section Replace

variable {retTy : Function → Option Ty} {s t : ArenaState} {rep repWith u : Inst} {kind : InstKind}

variable {args done : List Inst} {mapInst : Inst → Inst} {target : BasicBlock}

theorem swapped_eq_self (other : u ≠ rep) : swapped rep repWith u = u := if_neg other

theorem swapped_ne (differ : repWith ≠ rep) : swapped rep repWith u ≠ rep := by
  unfold swapped
  split <;> assumption

theorem map_swapped_of_notMem (notMem : rep ∉ args) : args.map (swapped rep repWith) = args := by
  conv_rhs => rw [← List.map_id args]
  refine List.map_congr_left fun x member => swapped_eq_self ?_
  rintro rfl
  exact notMem member

theorem instUsage_remapRefs (mapBlock : BasicBlock → BasicBlock) :
    (kind.remapRefs mapInst mapBlock).instUsage = kind.instUsage.map mapInst := by
  cases kind with
  | memZero dest byteLen => cases byteLen <;> rfl
  | ret value => cases value <;> rfl
  | _ => simp [InstKind.remapRefs, InstKind.instUsage]

theorem bbUsage_remapRefs : (kind.remapRefs mapInst id).bbUsage = kind.bbUsage := by
  cases kind with
  | memZero dest byteLen => cases byteLen <;> rfl
  | _ => rfl

theorem takenArm_eq_some :
    takenArm s rep repWith kind = some (target, args) ↔
      ∃ cond tTarget tArgs fTarget fArgs value, kind = .branch cond tTarget tArgs fTarget fArgs ∧
        s.kindOf (swapped rep repWith cond) = some (.integer value) ∧
        (if value = 0 then (fTarget, fArgs) else (tTarget, tArgs)) = (target, args) := by
  constructor
  · intro taken
    unfold takenArm at taken
    split at taken
    · next cond tTarget tArgs fTarget fArgs =>
        split at taken
        · next value isConstant =>
            exact ⟨cond, tTarget, tArgs, fTarget, fArgs, value, rfl, isConstant,
              Option.some.inj taken⟩
        · cases taken
    · cases taken
  · rintro ⟨cond, tTarget, tArgs, fTarget, fArgs, value, rfl, isConstant, taken⟩
    simp only [takenArm, isConstant, taken]

/-- The arguments and the target of the arm are operands and a target of the branch. -/
theorem takenArm_operands (taken : takenArm s rep repWith kind = some (target, args)) :
    (∀ v ∈ args, v ∈ kind.instUsage) ∧ target ∈ kind.bbUsage := by
  obtain ⟨cond, tTarget, tArgs, fTarget, fArgs, value, rfl, -, chosen⟩ := takenArm_eq_some.mp taken
  split at chosen <;> cases chosen
  · exact ⟨by simp +contextual [InstKind.instUsage], by simp [InstKind.bbUsage]⟩
  · exact ⟨by simp +contextual [InstKind.instUsage], by simp [InstKind.bbUsage]⟩

theorem takenArm_fits {ty ty' : Ty} (taken : takenArm s rep repWith kind = some (target, args))
    (built : s.resultTy retTy ty' kind = some ty) : s.argsFit target args ∧ ty = .unit := by
  obtain ⟨cond, tTarget, tArgs, fTarget, fArgs, value, rfl, -, chosen⟩ := takenArm_eq_some.mp taken
  rw [resultTy] at built
  split at built
  · next checks =>
      rw [Bool.and_eq_true] at checks
      cases built
      split at chosen <;> cases chosen
      · exact ⟨checks.2, rfl⟩
      · exact ⟨checks.1, rfl⟩
  · cases built

/-- What the code makes of a user is the substitution, unless it passes the replaced value on. -/
theorem replaced_eq_substituted
    (drops : ∀ {target args}, takenArm s rep repWith kind = some (target, args) → rep ∉ args) :
    replaced s rep repWith kind = substituted s rep repWith kind := by
  unfold replaced substituted
  split
  · next taken => rw [map_swapped_of_notMem (drops taken)]
  · rfl

theorem notMem_substituted (differ : repWith ≠ rep) :
    rep ∉ (substituted s rep repWith kind).instUsage := by
  unfold substituted
  intro member
  split at member
  · obtain ⟨v, -, same⟩ := List.mem_map.mp member
    exact swapped_ne differ same
  · rw [instUsage_remapRefs] at member
    obtain ⟨v, -, same⟩ := List.mem_map.mp member
    exact swapped_ne differ same

/-- Whether a branch folds depends on the constants only. -/
theorem takenArm_congr (same : SameTypes s t) :
    takenArm t rep repWith kind = takenArm s rep repWith kind := by
  ext ⟨target, args⟩
  simp only [takenArm_eq_some, same.constant]

theorem replaced_congr (same : SameTypes s t) :
    replaced t rep repWith kind = replaced s rep repWith kind := by
  unfold replaced
  rw [takenArm_congr same]

/-- The cases of the code give the replaced kind to every user. -/
theorem visitAndReplaceSingle_eq {user : UsedInst} (found : s.instData u = some user)
    (uses : rep ∈ user.data.kind.instUsage)
    (operands : ∀ v ∈ user.data.kind.instUsage, (s.instData (swapped rep repWith v)).isSome)
    (built : (s.resultTy retTy user.data.ty user.data.kind).isSome) :
    visitAndReplaceSingle retTy rep repWith u s =
      s.rebuild retTy u user.data.ty (replaced s rep repWith user.data.kind) := by
  obtain ⟨⟨ty, kind⟩, users⟩ := user
  unfold visitAndReplaceSingle replaced takenArm
  rw [found, Option.bind_some]
  cases kind with
  | undef => cases uses
  | zeroInit => cases uses
  | integer value => cases uses
  | float bits => cases uses
  | alloc => cases uses
  | blockArgRef index => cases uses
  | globalAlloc init => cases built
  | cast src | load src =>
    have same : rep = src := List.mem_singleton.mp uses
    simp [InstKind.remapRefs, swapped, same]
  | memZero dest byteLen => cases byteLen <;> rfl
  | getElemPtr base offsets =>
    have inside : base = rep ∨ rep ∈ offsets := by
      simpa [InstKind.instUsage, eq_comm] using uses
    exact if_pos inside
  | ret value =>
    have same : value = some rep := by
      simpa [InstKind.instUsage, Option.mem_toList] using uses
    simp [InstKind.remapRefs, swapped, same]
  | branch cond tTarget tArgs fTarget fArgs =>
    obtain ⟨data, isCond⟩ := Option.isSome_iff_exists.mp (operands cond List.mem_cons_self)
    have isKind : s.kindOf (swapped rep repWith cond) = some data.data.kind := by
      rw [kindOf, isCond, Option.map_some]
    simp only [isKind]
    cases data.data.kind with
    | integer value => by_cases zero : value = 0 <;> simp only [if_pos, if_neg, zero,
      not_false_eq_true]
    | _ => rfl
  | _ => rfl

/-! ## The users one after the other -/

/-- The operands of a rebuilt user, with those that stay. -/
theorem instUsage_replaced {v : Inst} (member : v ∈ (replaced s rep repWith kind).instUsage) :
    v ∈ kind.instUsage ∨ ∃ w ∈ kind.instUsage, v = swapped rep repWith w := by
  unfold replaced at member
  split at member
  · next target args taken =>
      exact .inl ((takenArm_operands taken).1 v member)
  · rw [instUsage_remapRefs, List.mem_map] at member
    obtain ⟨w, inside, same⟩ := member
    exact .inr ⟨w, inside, same.symm⟩

theorem bbUsage_replaced {bb : BasicBlock} (member : bb ∈ (replaced s rep repWith kind).bbUsage) :
    bb ∈ kind.bbUsage := by
  unfold replaced at member
  split at member
  · next target args taken =>
      rw [List.mem_singleton.mp member]
      exact (takenArm_operands taken).2
  · rwa [bbUsage_remapRefs] at member

theorem replaced_eq_integer {value : BitVec 32} :
    replaced s rep repWith kind = .integer value ↔ kind = .integer value := by
  unfold replaced
  split
  · next taken =>
      obtain ⟨_, _, _, _, _, _, rfl, -, -⟩ := takenArm_eq_some.mp taken
      exact iff_of_false (by simp) (by simp)
  · cases kind with
    | memZero dest byteLen => cases byteLen <;> simp [InstKind.remapRefs]
    | _ => simp [InstKind.remapRefs]

/-- The users in `done` are rebuilt. -/
structure Stage (s : ArenaState) (rep repWith : Inst) (done : List Inst) (t : ArenaState) :
    Prop where
  uses : UsesAgree t []
  targets : TargetsAgree t
  fresh : Fresh t
  layout : t.layout = s.layout
  blockParams : ∀ bb, t.blockParams bb = s.blockParams bb
  data : ∀ v, (t.instData v).map UsedInst.data = (s.instData v).map fun used =>
    if v ∈ done then { used.data with kind := replaced s rep repWith used.data.kind } else used.data

theorem Stage.isSome (stage : Stage s rep repWith done t) (v : Inst) :
    (t.instData v).isSome = (s.instData v).isSome := by
  rw [← Option.isSome_map (f := UsedInst.data), stage.data, Option.isSome_map]

/-- Rebuilding keeps types, constants and parameters. -/
theorem Stage.sameTypes (stage : Stage s rep repWith done t) : SameTypes s t where
  typeOf v := by
    have same := congrArg (Option.map InstData.ty) (stage.data v)
    simp only [Option.map_map] at same
    refine same.trans (congrArg (fun f => Option.map f (s.instData v)) (funext fun used => ?_))
    simp only [Function.comp_apply]
    split <;> rfl
  constant v value := by
    have same := congrArg (Option.map InstData.kind) (stage.data v)
    simp only [Option.map_map] at same
    have kinds : t.kindOf v = (s.instData v).map fun used =>
        if v ∈ done then replaced s rep repWith used.data.kind else used.data.kind := by
      refine same.trans (congrArg (fun f => Option.map f (s.instData v)) (funext fun used => ?_))
      simp only [Function.comp_apply]
      split <;> rfl
    rw [kinds, kindOf, Option.map_eq_some_iff, Option.map_eq_some_iff]
    refine exists_congr fun used => and_congr_right fun _ => ?_
    split
    · exact replaced_eq_integer
    · exact Iff.rfl
  blockParams := stage.blockParams

section Run

variable (replaceable : Replaceable retTy s rep repWith)

include replaceable

theorem swapped_isSome {v : Inst} (known : (s.instData v).isSome) :
    (s.instData (swapped rep repWith v)).isSome := by
  unfold swapped
  split
  · have same := replaceable.sameTy
    simp only [typeOf] at same
    rw [← Option.isSome_map (f := fun used : UsedInst => used.data.ty), same, Option.isSome_map]
    simpa [instData, replaceable.isLocal] using replaceable.found
  · exact known

theorem typeOf_swapped (v : Inst) : s.typeOf (swapped rep repWith v) = s.typeOf v := by
  unfold swapped
  split
  · next same => rw [same, replaceable.sameTy]
  · rfl

/-- The builder accepts what the code makes of a user, with the type it has. -/
theorem resultTy_replaced {used : UsedInst} (found : s.insts u = some used)
    (uses : rep ∈ used.data.kind.instUsage) :
    s.resultTy retTy used.data.ty (replaced s rep repWith used.data.kind) = some used.data.ty := by
  have built := (replaceable.users found uses).ty
  unfold replaced
  split
  · next target args taken =>
      obtain ⟨fits, isUnit⟩ := takenArm_fits taken built
      rw [resultTy, if_pos fits, isUnit]
  · refine resultTy_remapRefs (typeOf_swapped replaceable)
      (fun {index lanes} isLane accepted => ?_) built
    unfold swapped
    split
    · next same =>
        subst same
        exact replaceable.lanes found isLane accepted
    · exact accepted

/-- One more user is rebuilt. -/
theorem Stage.step {done : List Inst} (stage : Stage s rep repWith done t) (reads : s.Reads u rep)
    (new : u ∉ done) :
    ∃ r, visitAndReplaceSingle retTy rep repWith u t = some r ∧
      Stage s rep repWith (u :: done) r := by
  obtain ⟨used, found, uses⟩ := reads
  have built := replaceable.users found uses
  have isUsed : s.instData u = some used := by
    simpa [instData, built.isLocal] using found
  have same := stage.sameTypes
  -- the data of the user is untouched so far
  obtain ⟨now, isNow, sameData⟩ : ∃ now, t.insts u = some now ∧ now.data = used.data := by
    have data := stage.data u
    rw [isUsed, Option.map_some, if_neg new] at data
    obtain ⟨now, isNow, sameData⟩ := Option.map_eq_some_iff.mp data
    refine ⟨now, ?_, sameData⟩
    simpa [instData, built.isLocal] using isNow
  have isNow' : t.instData u = some now := by
    simpa [instData, built.isLocal] using isNow
  have whole := visitAndReplaceSingle_eq isNow'
    (by rwa [sameData])
    (fun v member => by
      rw [stage.isSome]
      rw [sameData] at member
      exact swapped_isSome replaceable (built.operands v member).2)
    (by rw [sameData, same.resultTy, built.ty]; rfl)
  rw [sameData, replaced_congr same, rebuild, same.resultTy,
    resultTy_replaced replaceable found uses, Option.bind_some] at whole
  have others : repWith ≠ u := by
    rintro rfl
    exact replaceable.notUser ⟨used, found, uses⟩
  obtain ⟨r, replace⟩ : ∃ r, t.replaceInstWith u
      ⟨used.data.ty, replaced s rep repWith used.data.kind⟩ = some r := replaceInstWith_total
    built.isLocal isNow
    (by
      intro v member
      rw [sameData, List.mem_append] at member
      rw [stage.isSome]
      rcases member with old | new
      · exact built.operands v old
      · rcases instUsage_replaced new with old | ⟨w, old, rfl⟩
        · exact built.operands v old
        · refine ⟨?_, swapped_isSome replaceable (built.operands w old).2⟩
          unfold swapped
          split
          · exact others
          · exact (built.operands w old).1)
    (by
      intro bb member
      rw [sameData, List.mem_append] at member
      have target : bb ∈ now.data.kind.bbUsage := by
        rw [sameData]
        exact member.elim id bbUsage_replaced
      exact ((stage.targets u bb built.isLocal).mpr ⟨now, isNow, target⟩).isSome)
  obtain ⟨uses', targets', after⟩ := replaceInstWith_agrees stage.uses stage.targets stage.fresh
    replace
  obtain ⟨data', params'⟩ := replaceInstWith_data built.isLocal replace
  refine ⟨r, whole.trans replace, uses', targets', after.fresh, after.layout.trans stage.layout,
    fun bb => (params' bb).trans (stage.blockParams bb), fun v => ?_⟩
  rw [data', stage.data]
  by_cases here : v = u
  · subst here
    simp [isUsed]
  · simp [here]

/-- All users are rebuilt. -/
theorem Stage.run : ∀ {list : List Inst} {done : List Inst} {t : ArenaState},
    Stage s rep repWith done t → (∀ u ∈ list, s.Reads u rep ∧ u ∉ done) → list.Nodup →
    ∃ r, visitAndReplaceAll retTy rep repWith list t = some r ∧
      Stage s rep repWith (list.reverse ++ done) r
  | [], _, t, stage, _, _ => ⟨t, rfl, stage⟩
  | u :: rest, done, t, stage, each, nodup => by
      obtain ⟨reads, new⟩ := each u List.mem_cons_self
      obtain ⟨middle, first, stage'⟩ := stage.step replaceable reads new
      obtain ⟨notMem, nodup'⟩ := List.nodup_cons.mp nodup
      have later : ∀ w ∈ rest, s.Reads w rep ∧ w ∉ u :: done := by
        intro w member
        obtain ⟨reads, new⟩ := each w (List.mem_cons_of_mem u member)
        refine ⟨reads, ?_⟩
        rw [List.mem_cons, not_or]
        exact ⟨fun same => notMem (same ▸ member), new⟩
      obtain ⟨r, others, stage''⟩ := Stage.run stage' later nodup'
      refine ⟨r, ?_, ?_⟩
      · rw [visitAndReplaceAll, first]
        exact others
      · simpa using stage''

/-- What the code does: exactly the users are rebuilt. -/
theorem visitAndReplace_spec (order : UserOrder) :
    ∃ t done, visitAndReplace retTy order rep repWith s = some t ∧ Stage s rep repWith done t ∧
      ∀ u, u ∈ done ↔ s.Reads u rep := by
  obtain ⟨used, found⟩ := Option.isSome_iff_exists.mp replaceable.found
  have isUsed : s.instData rep = some used := by
    simpa [instData, replaceable.isLocal] using found
  have users : ∀ u, u ∈ order.list used.usedBy ↔ s.Reads u rep := by
    intro u
    rw [order.mem_iff]
    constructor
    · intro member
      have usedBy : s.UsedBy rep u := ⟨used, found, member⟩
      exact (replaceable.consistent.uses u rep (replaceable.usersLocal usedBy) replaceable.isLocal
        List.not_mem_nil).mp usedBy
    · rintro ⟨user, isUser, reads⟩
      have isLocal := (replaceable.users isUser reads).isLocal
      obtain ⟨used', found', member⟩ := (replaceable.consistent.uses u rep isLocal
        replaceable.isLocal List.not_mem_nil).mpr ⟨user, isUser, reads⟩
      rw [found] at found'
      cases found'
      exact member
  have start : Stage s rep repWith [] s :=
    ⟨replaceable.consistent.uses, replaceable.consistent.targets, replaceable.fresh, rfl,
      fun _ => rfl, fun v => by simp⟩
  obtain ⟨t, run, stage⟩ := start.run replaceable
    (fun u member => ⟨(users u).mp member, List.not_mem_nil⟩) (order.nodup used.usedBy)
  refine ⟨t, _, ?_, stage, fun u => by simp [users]⟩
  rw [visitAndReplace, isUsed]
  exact run

/-- The code substitutes exactly if no user is folded to a jump that passes the replaced value
on. -/
theorem visitAndReplace_substituted_iff (order : UserOrder) :
    ∃ t, visitAndReplace retTy order rep repWith s = some t ∧
      (Substituted s t rep repWith ↔ ∀ u, ¬ KeepsUse s rep repWith u) := by
  obtain ⟨t, done, run, stage, isDone⟩ := visitAndReplace_spec replaceable order
  refine ⟨t, run, ?_⟩
  have isUser (u : Inst) (used : UsedInst) (found : s.instData u = some used) :
      u ∈ done ↔ u.isGlobal = false ∧ rep ∈ used.data.kind.instUsage := by
    rw [isDone]
    constructor
    · rintro ⟨used', found', uses⟩
      have isLocal := (replaceable.users found' uses).isLocal
      simp only [instData, isLocal, Bool.false_eq_true, if_false] at found
      cases found.symm.trans found'
      exact ⟨isLocal, uses⟩
    · rintro ⟨isLocal, uses⟩
      simp only [instData, isLocal, Bool.false_eq_true, if_false] at found
      exact ⟨used, found, uses⟩
  constructor
  · rintro all u ⟨used, target, args, found, taken, passes⟩
    have uses := (takenArm_operands taken).1 rep passes
    have isLocal := (replaceable.users found uses).isLocal
    have isUsed : s.instData u = some used := by
      simpa [instData, isLocal] using found
    have data := stage.data u
    rw [isUsed, Option.map_some, if_pos ((isUser u used isUsed).mpr ⟨isLocal, uses⟩), replaced,
      taken] at data
    obtain ⟨now, isNow, sameData⟩ := Option.map_eq_some_iff.mp data
    simp only [instData, isLocal, Bool.false_eq_true, if_false] at isNow
    refine all.unused u isLocal ⟨now, isNow, ?_⟩
    rw [sameData]
    exact passes
  · intro drops
    have same (u : Inst) (used : UsedInst) (found : s.instData u = some used)
        (user : u.isGlobal = false) :
        replaced s rep repWith used.data.kind = substituted s rep repWith used.data.kind := by
      refine replaced_eq_substituted fun {target args} taken passes => drops u ?_
      simp only [instData, user, Bool.false_eq_true, if_false] at found
      exact ⟨used, target, args, found, taken, passes⟩
    have data : ∀ u, (t.instData u).map UsedInst.data = (s.instData u).map fun used =>
        if u.isGlobal = false ∧ rep ∈ used.data.kind.instUsage then
          { used.data with kind := substituted s rep repWith used.data.kind }
        else used.data := by
      intro u
      rw [stage.data]
      cases found : s.instData u with
      | none => rfl
      | some used =>
        simp only [Option.map_some, Option.some.injEq]
        by_cases user : u.isGlobal = false ∧ rep ∈ used.data.kind.instUsage
        · rw [if_pos ((isUser u used found).mpr user), if_pos user, same u used found user.1]
        · rw [if_neg (mt (isUser u used found).mp user), if_neg user]
    refine ⟨data, ?_, ⟨stage.uses, stage.targets, ?_⟩, stage.layout, stage.blockParams⟩
    · rintro u isLocal ⟨now, isNow, reads⟩
      have isData := data u
      simp only [instData, isLocal, Bool.false_eq_true, if_false, isNow, Option.map_some] at isData
      obtain ⟨used, found, sameData⟩ := Option.map_eq_some_iff.mp isData.symm
      rw [← sameData] at reads
      split at reads
      · exact notMem_substituted replaceable.differ reads
      · next other => exact other ⟨trivial, reads⟩
    · rw [stage.layout]
      exact replaceable.consistent.layout

end Run

end Replace

/-- A function that branches on the constant 1, to block 2 with its parameter or with 1. -/
def constantBranchCalls : List ArenaCall :=
  [.basicBlock [.int32], .basicBlock [.int32], .pushBbBack 1, .pushBbBack 2,
    .allocLocalInst ⟨.int32, .integer 1⟩, .allocLocalInst ⟨.unit, .branch 3 2 [1] 2 [3]⟩,
    .allocLocalInst ⟨.unit, .ret none⟩, .insertInst 1 4, .insertInst 2 5]

def constantBranch : ArenaState :=
  (runCalls constantBranchCalls (empty (fun _ => none) globalIdStart)).get (by decide)

theorem constantBranch_replaceable : Replaceable (fun _ => none) constantBranch 1 3 := by
  have run : runCalls constantBranchCalls (empty (fun _ => none) globalIdStart) =
      some constantBranch := (Option.some_get _).symm
  obtain ⟨consistent, fresh⟩ := runCalls_consistent run (consistent_empty _ _) (fresh_empty _ _)
    (by simp [constantBranchCalls, removed, KeepsUses])
  have next : constantBranch.nextInst = 6 := by decide
  have users : ∀ u < 6, ∀ used ∈ constantBranch.insts u, 1 ∈ used.data.kind.instUsage →
      u = 4 ∧ used.data = ⟨.unit, .branch 3 2 [1] 2 [3]⟩ := by decide
  have isUser : ∀ {u used}, constantBranch.insts u = some used → 1 ∈ used.data.kind.instUsage →
      u = 4 ∧ used.data = ⟨.unit, .branch 3 2 [1] 2 [3]⟩ := by
    intro u used found uses
    refine users u ?_ used found uses
    by_contra above
    have absent := fresh.insts.resolve_left (by rw [next]; decide) u (next ▸ Nat.not_lt.mp above)
    rw [absent] at found
    cases found
  have noLane : constantBranch.laneConstant 1 = fun _ => false := rfl
  refine ⟨consistent, fresh, fun {u used} found uses => ?_, fun {u} used => ?_, rfl, by decide,
    fun _ _ accepted => ?_, by decide, by decide, ?_⟩
  · obtain ⟨rfl, isBranch⟩ := isUser found uses
    rw [isBranch]
    exact ⟨rfl, by decide, by decide⟩
  · obtain ⟨used, found, member⟩ := used
    have users : used.usedBy = {4} := by
      have all : ∀ used ∈ constantBranch.insts 1, used.usedBy = {4} := by decide
      exact all used found
    rw [users, Finset.mem_singleton] at member
    rw [member]
    rfl
  · rw [noLane] at accepted
    cases accepted
  · rintro ⟨used, found, uses⟩
    exact absurd (isUser found uses).1 (by decide)

/-- The branch is folded to a jump that still passes the parameter on. -/
theorem visitAndReplace_keepsUse : Replaceable (fun _ => none) constantBranch 1 3 ∧
    ∀ order : UserOrder, ∃ t,
      visitAndReplace (fun _ => none) order 1 3 constantBranch = some t ∧ t.Reads 4 1 ∧
        ¬ Substituted constantBranch t 1 3 := by
  refine ⟨constantBranch_replaceable, fun order => ?_⟩
  obtain ⟨t, done, run, stage, isDone⟩ := visitAndReplace_spec constantBranch_replaceable order
  have uses : constantBranch.Reads 4 1 := by
    have reads : ∃ used ∈ constantBranch.insts 4, 1 ∈ used.data.kind.instUsage := by decide
    exact reads
  have folded : (constantBranch.instData 4).map (fun used =>
      ({ used.data with kind := replaced constantBranch 1 3 used.data.kind } : InstData)) =
        some ⟨.unit, .jump 2 [1]⟩ := by decide
  have data := stage.data 4
  simp only [if_pos ((isDone 4).mpr uses), folded] at data
  obtain ⟨now, isNow, isJump⟩ := Option.map_eq_some_iff.mp data
  have reads : t.Reads 4 1 := ⟨now, isNow, by rw [isJump]; decide⟩
  exact ⟨t, run, reads, fun all => all.unused 4 rfl reads⟩

/-- The users in increasing order. -/
def UserOrder.increasing : UserOrder where
  list users := users.sort (· ≤ ·)
  nodup users := users.sort_nodup _
  mem_iff _ _ := Finset.mem_sort _

theorem visitAndReplace_substituted_iff_constantBranch : ∃ t,
    visitAndReplace (fun _ => none) .increasing 1 3 constantBranch = some t ∧
      (Substituted constantBranch t 1 3 ↔ ∀ u, ¬ KeepsUse constantBranch 1 3 u) :=
  visitAndReplace_substituted_iff constantBranch_replaceable .increasing

end AnonCompiler.Opt
