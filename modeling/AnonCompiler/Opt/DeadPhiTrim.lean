import AnonCompiler.Opt.DeadPhi

/-!
# What trimming makes of a function

Block by block the unused parameters go away together with their arguments.  After the
blocks in `done` the function is `trimmed F done`: positions are dropped from the
parameters of these blocks and from the arguments passed to them, and nothing else has
changed.
-/

set_option autoImplicit false

namespace AnonCompiler.Opt.DeadPhi

open Ir Lib

variable (F : FunctionData) (done : BasicBlock → Bool)

/-- The positions of a block that trimming drops. -/
def dropped (bb : BasicBlock) (index : Nat) : Bool :=
  F.entryBlock ≠ some bb && isUnused F bb index

/-- What is passed to a block, or bound there. -/
def trimList {α : Type} (bb : BasicBlock) (list : List α) : List α :=
  if done bb then keepFrom (dropped F bb) 0 list else list

def trimmedKind : InstKind → InstKind
  | .jump target args => .jump target (trimList F done target args)
  | .branch cond tTarget tArgs fTarget fArgs =>
    .branch cond tTarget (trimList F done tTarget tArgs) fTarget (trimList F done fTarget fArgs)
  | kind => kind

/-- The function after the blocks in `done`. -/
def trimmed : FunctionData :=
  { F with
    blockParams := fun bb => trimList F done bb (F.blockParams bb)
    insts := fun inst => (F.insts inst).map fun data =>
      if inst ∈ F.layoutInsts then { data with kind := trimmedKind F done data.kind } else data }

variable {F done}

section Trimming

variable {P : Program} {bb : BasicBlock} {kind : InstKind} {inst : Inst}

theorem unusedParams_eq (bb : BasicBlock) : unusedParams F bb =
    ((List.range (F.blockParams bb).length).filter (dropped F bb)).reverse := by
  unfold unusedParams
  split
  · next isEntry =>
      have none : ∀ i, dropped F bb i = false := fun i => by simp [dropped, isEntry]
      simp [none]
  · next notEntry =>
      have same : dropped F bb = isUnused F bb := by
        funext i
        simp [dropped, notEntry]
      rw [same]

/-- A block without unused parameters drops nothing. -/
theorem dropped_of_empty (empty : unusedParams F bb = []) (i : Nat) : dropped F bb i = false := by
  rw [unusedParams_eq, List.reverse_eq_nil_iff, List.filter_eq_nil_iff] at empty
  by_cases inside : i < (F.blockParams bb).length
  · simpa using empty i (List.mem_range.mpr inside)
  · simp [dropped, isUnused, List.getElem?_eq_none (Nat.not_lt.mp inside)]

theorem trimList_of_none {α : Type} (none : ∀ i, dropped F bb i = false) (list : List α) :
    trimList F done bb list = list := by
  unfold trimList
  split
  · exact keepFrom_of_none none list
  · rfl

theorem trimList_map {α β : Type} (f : α → β) (list : List α) :
    trimList F done bb (list.map f) = (trimList F done bb list).map f := by
  unfold trimList
  split
  · exact keepFrom_map f list
  · rfl

@[simp] theorem bbUsage_trimmedKind : (trimmedKind F done kind).bbUsage = kind.bbUsage := by
  cases kind <;> rfl

/-- The blocks that are not named do not matter. -/
theorem trimmedKind_congr {done' : BasicBlock → Bool}
    (same : ∀ b ∈ kind.bbUsage, done' b = done b) :
    trimmedKind F done' kind = trimmedKind F done kind := by
  cases kind with
  | jump target args =>
    simp only [trimmedKind, trimList, same target (by simp [InstKind.bbUsage])]
  | branch cond tTarget tArgs fTarget fArgs =>
    simp only [trimmedKind, trimList, same tTarget (by simp [InstKind.bbUsage]),
      same fTarget (by simp [InstKind.bbUsage])]
  | _ => rfl

theorem trimmed_blockParams :
    (trimmed F done).blockParams bb = trimList F done bb (F.blockParams bb) := rfl

theorem trimmed_types (x : Inst) : ((trimmed F done).insts x).map InstData.ty =
    (F.insts x).map InstData.ty := by
  rw [trimmed, Option.map_map]
  congr 1
  funext data
  simp only [Function.comp_apply]
  split <;> rfl

theorem typeOf_trimmed : P.typeOf (trimmed F done) = P.typeOf F := typeOf_congr trimmed_types

/-- Trimmed arguments fit trimmed parameters. -/
theorem argsFit_trimmed {args : List Inst} (fit : argsFit P F bb args) :
    argsFit P (trimmed F done) bb (trimList F done bb args) := by
  have same := of_decide_eq_true fit
  refine decide_eq_true ?_
  rw [typeOf_trimmed, ← trimList_map, same, trimList_map]
  rfl

theorem accepts_trimmed (accepted : accepts P F kind) :
    accepts P (trimmed F done) (trimmedKind F done kind) := by
  cases kind with
  | jump target args => exact argsFit_trimmed accepted
  | branch cond tTarget tArgs fTarget fArgs =>
    have both := (Bool.and_eq_true _ _).mp accepted
    exact (Bool.and_eq_true _ _).mpr ⟨argsFit_trimmed both.1, argsFit_trimmed both.2⟩
  | _ => rfl

end Trimming

/-! ## One block -/

def withBlock (done : BasicBlock → Bool) (bb : BasicBlock) : BasicBlock → Bool :=
  fun b => done b || b == bb

/-- The block is trimmed in its parameters and in the users listed. -/
def trimming (F : FunctionData) (done : BasicBlock → Bool) (bb : BasicBlock) (users : List Inst) :
    FunctionData :=
  { trimmed F (withBlock done bb) with
    insts := fun inst =>
      if inst ∈ users then (trimmed F (withBlock done bb)).insts inst
      else (trimmed F done).insts inst }

section Block

variable {P : Program} {order : Order} {bb : BasicBlock} {kind : InstKind} {inst : Inst}
  {data : InstData} {users : List Inst}

variable {b : BasicBlock} {α : Type}

theorem withBlock_of_ne (other : b ≠ bb) : withBlock done bb b = done b := by
  simp [withBlock, other]

theorem trimList_withBlock (other : b ≠ bb) (list : List α) :
    trimList F (withBlock done bb) b list = trimList F done b list := by
  rw [trimList, trimList, withBlock_of_ne other]

theorem trimList_new (list : List α) :
    trimList F (withBlock done bb) bb list = keepFrom (dropped F bb) 0 list := by
  simp [trimList, withBlock]

theorem trimList_old (new : done bb = false) (list : List α) : trimList F done bb list = list := by
  simp [trimList, new]

/-- Removing the unused positions of as many arguments as there are parameters. -/
theorem removeAt_unusedParams {args : List Inst} (fit : argsFit P F bb args) :
    removeAt (unusedParams F bb) args = some (keepFrom (dropped F bb) 0 args) := by
  have length := congrArg List.length (of_decide_eq_true fit)
  rw [List.length_map, List.length_map] at length
  rw [unusedParams_eq, ← length, removeAt_eq]

theorem trimKind_trimmedKind (new : done bb = false) (accepted : accepts P F kind)
    (uses : bb ∈ kind.bbUsage) : trimKind bb (unusedParams F bb) (trimmedKind F done kind) =
      some (trimmedKind F (withBlock done bb) kind) := by
  cases kind with
  | jump target args =>
    obtain rfl := List.mem_singleton.mp uses
    simp only [trimKind, trimmedKind, trimList_old new, removeAt_unusedParams accepted,
      Option.map_some, trimList_new]
  | branch cond tTarget tArgs fTarget fArgs =>
    obtain ⟨tFit, fFit⟩ := (Bool.and_eq_true _ _).mp accepted
    have arm : ∀ {target args}, argsFit P F target args →
        trimArm bb (unusedParams F bb) target (trimList F done target args) =
          some (trimList F (withBlock done bb) target args) := by
      intro target args fit
      unfold trimArm
      by_cases here : bb = target
      · subst here
        rw [if_pos rfl, trimList_old new, removeAt_unusedParams fit, trimList_new]
      · rw [if_neg here, trimList_withBlock (Ne.symm here)]
    simp only [trimKind, trimmedKind, arm tFit, arm fFit, Option.bind_eq_bind, Option.bind_some]
  | _ => cases uses

theorem typeOf_trimming : P.typeOf (trimming F done bb users) = P.typeOf F := by
  refine typeOf_congr fun x => ?_
  simp only [trimming]
  split
  · exact trimmed_types x
  · exact trimmed_types x

/-- A user is trimmed. -/
theorem trimTerminator_trimming (new : done bb = false) (accepted : Accepted P F)
    (laidOut : inst ∈ F.layoutInsts) (found : F.insts inst = some data)
    (uses : bb ∈ data.kind.bbUsage) (fresh : inst ∉ users) :
    trimTerminator P bb (unusedParams F bb) (trimming F done bb users) inst =
      some (trimming F done bb (inst :: users)) := by
  have fits := accepted laidOut found
  have now : (trimming F done bb users).insts inst =
      some { data with kind := trimmedKind F done data.kind } := by
    simp [trimming, fresh, trimmed, found, laidOut]
  have accepted' : accepts P (trimming F done bb users)
      (trimmedKind F (withBlock done bb) data.kind) := by
    have whole : accepts P (trimmed F (withBlock done bb))
        (trimmedKind F (withBlock done bb) data.kind) := accepts_trimmed fits
    have sameTypes : P.typeOf (trimming F done bb users) =
      P.typeOf (trimmed F (withBlock done bb)) := by
      rw [typeOf_trimming, typeOf_trimmed]
    cases isKind : trimmedKind F (withBlock done bb) data.kind with
    | jump | branch =>
      rw [isKind] at whole
      simp only [accepts, argsFit, sameTypes]
      exact whole
    | _ => rfl
  simp only [trimTerminator, now, Option.bind_eq_bind, Option.bind_some,
    trimKind_trimmedKind new fits uses, accepted', if_true, Option.some.injEq]
  rw [FunctionData.replaceInst, trimming, trimming]
  congr 1
  funext x
  by_cases here : x = inst
  · subst here
    simp [trimmed, found, laidOut]
  · rw [Function.update_of_ne here]
    simp [here]

theorem foldlM_trimTerminator (new : done bb = false) (accepted : Accepted P F) {list : List Inst}
    (each : ∀ inst ∈ list, inst ∈ F.layoutInsts ∧ ∃ data, F.insts inst = some data ∧
      bb ∈ data.kind.bbUsage) (nodup : list.Nodup) (fresh : ∀ inst ∈ list, inst ∉ users) :
    list.foldlM (trimTerminator P bb (unusedParams F bb)) (trimming F done bb users) =
      some (trimming F done bb (list.reverse ++ users)) := by
  induction list generalizing users with
  | nil => rfl
  | cons inst list ih =>
    obtain ⟨laidOut, data, found, uses⟩ := each inst List.mem_cons_self
    obtain ⟨notLater, nodup⟩ := List.nodup_cons.mp nodup
    rw [List.foldlM_cons, trimTerminator_trimming new accepted laidOut found uses
      (fresh inst List.mem_cons_self), Option.bind_eq_bind, Option.bind_some,
      ih (fun x member => each x (List.mem_cons_of_mem _ member)) nodup]
    · simp
    · intro x member
      rw [List.mem_cons, not_or]
      exact ⟨fun same => notLater (same ▸ member), fresh x (List.mem_cons_of_mem _ member)⟩

theorem parentBlock_isSome : (F.parentBlock inst).isSome ↔ inst ∈ F.layoutInsts := by
  simp [FunctionData.parentBlock, FunctionData.layoutInsts]

/-- The users of the block in the layout. -/
theorem mem_users (inst_lt : ∀ {inst}, F.insts inst ≠ none → inst < F.nextInst)
    (walks : ∀ users, (order.users users).Perm users) {G : FunctionData}
    (insts : G.insts = (trimmed F done).insts) (nextInst : G.nextInst = F.nextInst)
    (layout : G.layout = F.layout) :
    inst ∈ (order.users (G.bbUsedBy bb)).filter (fun inst => (G.parentBlock inst).isSome) ↔
      inst ∈ F.layoutInsts ∧ ∃ data, F.insts inst = some data ∧ bb ∈ data.kind.bbUsage := by
  have laidOut : (G.parentBlock inst).isSome ↔ inst ∈ F.layoutInsts := by
    rw [parentBlock_isSome, FunctionData.layoutInsts, layout]
    rfl
  rw [List.mem_filter, (walks _).mem_iff, laidOut, and_comm]
  refine and_congr_right fun _ => ?_
  simp only [FunctionData.bbUsedBy, List.mem_filter, List.mem_range, insts, nextInst, trimmed]
  cases found : F.insts inst with
  | none => simp
  | some data =>
    have below : inst < F.nextInst := inst_lt (by simp [found])
    by_cases placed : inst ∈ F.layoutInsts <;> simp [placed, below]

/-- All users are trimmed when the users that name the block are. -/
theorem trimming_eq (whole : ∀ inst, inst ∈ F.layoutInsts ∧ (∃ data, F.insts inst = some data ∧
    bb ∈ data.kind.bbUsage) → inst ∈ users) :
    trimming F done bb users = trimmed F (withBlock done bb) := by
  rw [trimming]
  congr 1
  funext inst
  by_cases isUser : inst ∈ users
  · rw [if_pos isUser]
    rfl
  · rw [if_neg isUser]
    simp only [trimmed]
    cases found : F.insts inst with
    | none => rfl
    | some data =>
      simp only [Option.map_some, Option.some.injEq]
      by_cases laidOut : inst ∈ F.layoutInsts
      · have notNamed : bb ∉ data.kind.bbUsage := fun uses =>
          isUser (whole inst ⟨laidOut, data, found, uses⟩)
        have same : trimmedKind F (withBlock done bb) data.kind = trimmedKind F done data.kind :=
          trimmedKind_congr fun b member => withBlock_of_ne fun isBb => notNamed (isBb ▸ member)
        rw [if_pos laidOut, if_pos laidOut, same]
      · rw [if_neg laidOut, if_neg laidOut]

section

variable (inst_lt : ∀ {inst}, F.insts inst ≠ none → inst < F.nextInst)
  (walks : ∀ users, (order.users users).Perm users) (accepted : Accepted P F)
include inst_lt walks accepted

theorem trimBlock_trimmed (new : done bb = false) :
    trimBlock P order (trimmed F done) (bb, unusedParams F bb) =
      some (trimmed F (withBlock done bb)) := by
  unfold trimBlock
  by_cases empty : unusedParams F bb = []
  · have none := dropped_of_empty empty
    have sameList : ∀ {α : Type} (b : BasicBlock) (list : List α),
        trimList F (withBlock done bb) b list = trimList F done b list := by
      intro α b list
      by_cases here : b = bb
      · rw [here, trimList_of_none none, trimList_of_none none]
      · exact trimList_withBlock here list
    have sameKind : ∀ kind, trimmedKind F (withBlock done bb) kind = trimmedKind F done kind := by
      intro kind
      cases kind <;> simp only [trimmedKind, sameList]
    rw [if_pos empty, trimmed, trimmed]
    simp only [sameList, sameKind]
  · rw [if_neg empty]
    have params : removeAt (unusedParams F bb) ((trimmed F done).blockParams bb) =
        some (keepFrom (dropped F bb) 0 (F.blockParams bb)) := by
      rw [show (trimmed F done).blockParams bb = F.blockParams bb from trimList_old new _,
        unusedParams_eq, removeAt_eq]
    simp only [params, Option.bind_eq_bind, Option.bind_some]
    have start : { trimmed F done with
        blockParams := Function.update (trimmed F done).blockParams bb
          (keepFrom (dropped F bb) 0 (F.blockParams bb)) } = trimming F done bb [] := by
      rw [trimming]
      simp only [List.not_mem_nil, if_false]
      congr 1
      funext b
      by_cases here : b = bb
      · subst here
        rw [Function.update_self]
        exact (trimList_new _).symm
      · rw [Function.update_of_ne here]
        exact (trimList_withBlock here _).symm
    rw [start]
    have insts : (trimming F done bb []).insts = (trimmed F done).insts := by
      funext inst
      simp [trimming]
    have isUser : ∀ inst, inst ∈ (order.users ((trimming F done bb []).bbUsedBy bb)).filter
        (fun inst => ((trimming F done bb []).parentBlock inst).isSome) ↔
          inst ∈ F.layoutInsts ∧ ∃ data, F.insts inst = some data ∧ bb ∈ data.kind.bbUsage :=
      fun inst => mem_users inst_lt walks insts rfl rfl
    have nodup : ((order.users ((trimming F done bb []).bbUsedBy bb)).filter
        fun inst => ((trimming F done bb []).parentBlock inst).isSome).Nodup :=
      ((walks _).nodup_iff.mpr (List.nodup_range.filter _)).filter _
    have whole := foldlM_trimTerminator new accepted (fun inst member => (isUser inst).mp member)
      nodup fun _ _ => List.not_mem_nil
    rw [List.append_nil, trimming_eq fun inst uses =>
      List.mem_reverse.mpr ((isUser inst).mpr uses)] at whole
    exact whole

/-- All blocks of a list. -/
theorem foldlM_trimBlock {blocks : List BasicBlock} (nodup : blocks.Nodup)
    (new : ∀ bb ∈ blocks, done bb = false) :
    (blocks.map fun bb => (bb, unusedParams F bb)).foldlM (trimBlock P order) (trimmed F done) =
      some (trimmed F fun b => done b || b ∈ blocks) := by
  induction blocks generalizing done with
  | nil => simp
  | cons bb blocks ih =>
    obtain ⟨notLater, nodup⟩ := List.nodup_cons.mp nodup
    rw [List.map_cons, List.foldlM_cons, trimBlock_trimmed inst_lt walks accepted
      (new bb List.mem_cons_self), Option.bind_eq_bind, Option.bind_some, ih nodup]
    · congr 2
      funext b
      simp [withBlock, Bool.or_assoc, beq_eq_decide]
    · intro b member
      have other : b ≠ bb := fun same => notLater (same ▸ member)
      rw [withBlock_of_ne other]
      exact new b (List.mem_cons_of_mem _ member)

end

theorem trimmed_nothing : trimmed F (fun _ => false) = F := by
  have kinds : ∀ kind, trimmedKind F (fun _ => false) kind = kind := by
    intro kind
    cases kind <;> rfl
  rw [trimmed]
  simp only [kinds, ite_self, trimList, Bool.false_eq_true, if_false]
  cases F
  simp

end Block

end AnonCompiler.Opt.DeadPhi
