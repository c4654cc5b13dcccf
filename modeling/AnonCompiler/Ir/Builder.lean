import AnonCompiler.Ir.DefUse

/-!
# Building instructions

The methods of `raana_ir/src/ir/builder.rs`: each one works out the type of the new
instruction from its operands, and panics when one of its assertions fails
(`resultTy`).  The type only depends on the types of the operands, on constants that name
lanes and on the parameters of the targets, so operands of equal types can be exchanged.
-/

set_option autoImplicit false

namespace AnonCompiler.Ir

def Ty.isScalar : Ty → Bool
  | .int32 | .float32 => true
  | _ => false

/-- The operand whose constant the builder checks: the lane of a vector. -/
def InstKind.laneIndex : InstKind → Option Inst
  | .vectorExtractElement _ index | .vectorInsertElement _ _ index => some index
  | _ => none

namespace ArenaState

section Query

variable (s : ArenaState)

def typeOf (inst : Inst) : Option Ty := (s.instData inst).map fun used => used.data.ty

def kindOf (inst : Inst) : Option InstKind := (s.instData inst).map fun used => used.data.kind

def blockParams (bb : BasicBlock) : Option (List Inst) := (s.blocks bb).map BlockData.params

/-- The arguments have the types of the parameters of the target. -/
def argsFit (target : BasicBlock) (args : List Inst) : Bool :=
  match s.blockParams target with
  | some params =>
    params.length = args.length &&
      (params.zip args).all fun (param, arg) =>
        (s.typeOf param).isSome && s.typeOf param = s.typeOf arg
  | none => false

/-- `assert_lane_constant`. -/
def laneConstant (index : Inst) (lanes : Nat) : Bool :=
  match s.kindOf index with
  | some (.integer lane) => 0 ≤ lane.toInt && lane.toInt < (BitVec.ofNat 32 lanes).toInt
  | _ => false

/-- The type of the instruction that the builder's method for the kind makes; a cast, a
splat, a slot and an undefined value have the type `ty` that the method is given. -/
def resultTy (retTy : Function → Option Ty) (ty : Ty) : InstKind → Option Ty
  | .undef | .blockArgRef _ => some ty
  | .zeroInit | .globalAlloc _ => none
  | .integer _ => some .int32
  | .float _ => some .float32
  | .alloc => if ty = .pointer .unit then none else some ty
  | .aggregate value => do
      let first ← value.head?
      let elem ← s.typeOf first
      if value.all fun inst => s.typeOf inst = some elem then some (.array elem value.length)
      else none
  | .binary op lhs rhs => do
      let lhsTy ← s.typeOf lhs
      let rhsTy ← s.typeOf rhs
      if (lhsTy.isScalar || lhsTy.isVector) && lhsTy = rhsTy then
        some (if op.isCompare && !lhsTy.isVector then .int32 else lhsTy)
      else none
  | .select cond ifTrue ifFalse => do
      let condTy ← s.typeOf cond
      let trueTy ← s.typeOf ifTrue
      let falseTy ← s.typeOf ifFalse
      if (condTy = .int32 || condTy.isVector && condTy = trueTy) && trueTy = falseTy &&
          trueTy ≠ .unit then
        some trueTy
      else none
  | .branch _ tTarget tArgs fTarget fArgs =>
    if s.argsFit tTarget tArgs && s.argsFit fTarget fArgs then some .unit else none
  | .jump target args => if s.argsFit target args then some .unit else none
  | .call callee _ => retTy callee
  | .tailCall .. | .ret _ | .store .. => some .unit
  | .cast src => do
      let srcTy ← s.typeOf src
      if (srcTy.isScalar || srcTy.isVector) && (ty.isScalar || ty.isVector) then some ty else none
  | .getElemPtr base offsets => do
      let baseTy ← s.typeOf base
      if offsets.all fun inst => s.typeOf inst = some .int32 then
        (offsets.foldlM (fun ty _ => Ty.element ty) baseTy).map Ty.pointer
      else none
  | .load src =>
    match s.typeOf src with
    | some (.pointer base) => some base
    | _ => none
  | .memZero dest (.const bytes) => do
      let destTy ← s.typeOf dest
      if destTy.isPointer && 0 < bytes then some .unit else none
  | .memZero dest (.value len) => do
      let destTy ← s.typeOf dest
      if destTy.isPointer && s.typeOf len = some .int32 then some .unit else none
  | .fma acc lhs rhs => do
      let accTy ← s.typeOf acc
      if accTy.isVector && s.typeOf lhs = some accTy && s.typeOf rhs = some accTy then some accTy
      else none
  | .vectorSplat src =>
    match ty with
    | .vector elem _ => if elem.isScalar && s.typeOf src = some elem then some ty else none
    | _ => none
  | .vectorExtractElement src index =>
    match s.typeOf src with
    | some (.vector elem lanes) =>
      if s.typeOf index = some .int32 && s.laneConstant index lanes then some elem else none
    | _ => none
  | .vectorInsertElement vector element index =>
    match s.typeOf vector with
    | some (.vector elem lanes) =>
      if s.typeOf element = some elem && s.typeOf index = some .int32 &&
          s.laneConstant index lanes then
        some (.vector elem lanes)
      else none
    | _ => none
  | .vectorReduce src =>
    match s.typeOf src with
    | some (.vector elem _) => some elem
    | _ => none

/-- Replace an instruction by what the builder makes of the kind. -/
def rebuild (retTy : Function → Option Ty) (inst : Inst) (ty : Ty) (kind : InstKind) :
    Option ArenaState :=
  (s.resultTy retTy ty kind).bind fun ty => s.replaceInstWith inst ⟨ty, kind⟩

end Query

/-! ## What the type depends on -/

section Congruence

variable {s t : ArenaState} {retTy : Function → Option Ty} {ty : Ty}

/-- Two states with the same types, the same constants and the same block parameters. -/
structure SameTypes (s t : ArenaState) : Prop where
  typeOf : ∀ v, t.typeOf v = s.typeOf v
  constant : ∀ v value, t.kindOf v = some (.integer value) ↔ s.kindOf v = some (.integer value)
  blockParams : ∀ bb, t.blockParams bb = s.blockParams bb

theorem laneConstant_eq_true {index : Inst} {lanes : Nat} : s.laneConstant index lanes = true ↔
    ∃ lane, s.kindOf index = some (.integer lane) ∧ 0 ≤ lane.toInt ∧
      lane.toInt < (BitVec.ofNat 32 lanes).toInt := by
  unfold laneConstant
  split
  · next lane isConstant => simp [isConstant]
  · next other =>
      simp only [Bool.false_eq_true, false_iff, not_exists, not_and]
      intro lane isConstant
      exact absurd isConstant (other lane)

theorem SameTypes.argsFit (same : SameTypes s t) (target : BasicBlock) (args : List Inst) :
    t.argsFit target args = s.argsFit target args := by
  simp only [ArenaState.argsFit, same.blockParams, same.typeOf]

theorem SameTypes.laneConstant (same : SameTypes s t) (index : Inst) (lanes : Nat) :
    t.laneConstant index lanes = s.laneConstant index lanes := by
  rw [Bool.eq_iff_iff, laneConstant_eq_true, laneConstant_eq_true]
  simp only [same.constant]

theorem SameTypes.resultTy (same : SameTypes s t) (kind : InstKind) :
    t.resultTy retTy ty kind = s.resultTy retTy ty kind := by
  cases kind with
  | memZero dest byteLen => cases byteLen <;> simp only [ArenaState.resultTy, same.typeOf]
  | _ =>
    simp only [ArenaState.resultTy, same.typeOf, same.argsFit, same.laneConstant]

variable {mapInst : Inst → Inst}

theorem argsFit_map (sameTy : ∀ v, s.typeOf (mapInst v) = s.typeOf v) (target : BasicBlock)
    (args : List Inst) : s.argsFit target (args.map mapInst) = s.argsFit target args := by
  unfold argsFit
  cases s.blockParams target with
  | none => rfl
  | some params =>
    simp only [List.length_map, List.zip_map_right, List.all_map]
    congr 2
    funext pair
    simp [sameTy]

/-- Operands of the same types make an instruction of the same type, when a lane index becomes
one that is accepted as well. -/
theorem resultTy_remapRefs (sameTy : ∀ v, s.typeOf (mapInst v) = s.typeOf v) {kind : InstKind}
    (lane : ∀ {index lanes}, kind.laneIndex = some index → s.laneConstant index lanes = true →
      s.laneConstant (mapInst index) lanes = true)
    {found : Ty} (built : s.resultTy retTy ty kind = some found) :
    s.resultTy retTy ty (kind.remapRefs mapInst id) = some found := by
  cases kind with
  | memZero dest byteLen =>
    cases byteLen <;> simpa only [InstKind.remapRefs, resultTy, sameTy] using built
  | aggregate value =>
    simpa only [InstKind.remapRefs, resultTy, sameTy, List.head?_map, List.all_map,
      Function.comp_def, List.length_map, Option.bind_eq_bind, Option.bind_map] using built
  | getElemPtr base offsets =>
    simpa only [InstKind.remapRefs, resultTy, sameTy, List.all_map, Function.comp_def,
      List.foldlM_map] using built
  | vectorExtractElement | vectorInsertElement =>
    simp only [InstKind.remapRefs, resultTy, sameTy] at built ⊢
    split at built
    · split at built
      · next checks =>
          rw [Bool.and_eq_true] at checks
          rw [if_pos (by rw [checks.1, lane rfl checks.2]; rfl)]
          exact built
      · cases built
    · cases built
  | _ =>
    simpa only [InstKind.remapRefs, resultTy, sameTy, id, argsFit_map sameTy] using built

end Congruence

/-! ## Replacing succeeds -/

section Total

variable {s t : ArenaState} {f : Finset Inst → Finset Inst}

variable {kind : InstKind} {i : Inst} {present : Prop} {data : InstData}

/-- Global data stays apart from the sets of users. -/
theorem editUsers_globals {v : Inst} (edit : s.editUsers f v = some t) (w : Inst) :
    (t.globals w).map UsedInst.data = (s.globals w).map UsedInst.data := by
  obtain ⟨used, found, rfl⟩ := Option.map_eq_some_iff.mp edit
  cases isGlobal : v.isGlobal with
  | true =>
    simp only [instData, isGlobal, if_true] at found
    simp only [setInst, isGlobal, if_true]
    by_cases same : w = v
    · subst same
      simp [found]
    · simp [same]
  | false => simp [setInst, isGlobal]

theorem editUsage_globals (edit : s.editUsage f kind = some t) (w : Inst) :
    (t.globals w).map UsedInst.data = (s.globals w).map UsedInst.data := by
  obtain ⟨middle, first, rest⟩ := Option.bind_eq_some_iff.mp edit
  have operands : ∀ {list : List Inst} {s : ArenaState}, editAllUsers f list s = some middle →
      (middle.globals w).map UsedInst.data = (s.globals w).map UsedInst.data := by
    intro list
    induction list with
    | nil =>
      intro s edit
      cases edit
      rfl
    | cons v list ih =>
      intro s edit
      obtain ⟨next, one, others⟩ := Option.bind_eq_some_iff.mp edit
      exact (ih others).trans (editUsers_globals one w)
  have blocks : ∀ {list : List BasicBlock} {s : ArenaState}, editAllBlockUsers f list s = some t →
      t.globals = s.globals := by
    intro list
    induction list with
    | nil =>
      intro s edit
      cases edit
      rfl
    | cons bb list ih =>
      intro s edit
      obtain ⟨next, one, others⟩ := Option.bind_eq_some_iff.mp edit
      obtain ⟨block, found, rfl⟩ := Option.map_eq_some_iff.mp one
      exact (ih others).trans rfl
  rw [blocks rest]
  exact operands first

/-- The same instructions have data after the edit. -/
theorem editUsage_isSome (marks : Marks f i present) (edit : s.editUsage f kind = some t)
    (v : Inst) : (t.instData v).isSome = (s.instData v).isSome := by
  simp only [instData]
  split
  · rw [← Option.isSome_map (f := UsedInst.data), editUsage_globals edit, Option.isSome_map]
  · exact (editUsage_edited marks edit).isSome

/-- The sets of users of operands and targets with data can be edited. -/
theorem editUsage_total (marks : Marks f i present)
    (operands : ∀ v ∈ kind.instUsage, (s.instData v).isSome)
    (targets : ∀ bb ∈ kind.bbUsage, (s.blocks bb).isSome) : ∃ t, s.editUsage f kind = some t := by
  have keeps : ∀ {s t : ArenaState} {v : Inst}, s.editUsers f v = some t →
      ∀ w, (t.instData w).isSome = (s.instData w).isSome := by
    intro s t v edit w
    simp only [instData]
    split
    · rw [← Option.isSome_map (f := UsedInst.data), editUsers_globals edit, Option.isSome_map]
    · exact (editUsers_edited marks edit).isSome
  have all : ∀ {list : List Inst} {s : ArenaState}, (∀ v ∈ list, (s.instData v).isSome) →
      ∃ t, editAllUsers f list s = some t := by
    intro list
    induction list with
    | nil => exact fun _ => ⟨_, rfl⟩
    | cons v list ih =>
      intro s present
      obtain ⟨used, found⟩ := Option.isSome_iff_exists.mp (present v List.mem_cons_self)
      obtain ⟨next, edit⟩ : ∃ next, s.editUsers f v = some next :=
        ⟨_, by rw [editUsers, found, Option.map_some]⟩
      obtain ⟨t, rest⟩ := ih fun w member => by
        rw [keeps edit]
        exact present w (List.mem_cons_of_mem v member)
      exact ⟨t, by rw [editAllUsers, edit]; exact rest⟩
  have allBlocks : ∀ {list : List BasicBlock} {s : ArenaState},
      (∀ bb ∈ list, (s.blocks bb).isSome) →
      ∃ t, editAllBlockUsers f list s = some t := by
    intro list
    induction list with
    | nil => exact fun _ => ⟨_, rfl⟩
    | cons bb list ih =>
      intro s present
      obtain ⟨block, found⟩ := Option.isSome_iff_exists.mp (present bb List.mem_cons_self)
      obtain ⟨next, edit⟩ : ∃ next, s.editBlockUsers f bb = some next :=
        ⟨_, by rw [editBlockUsers, found, Option.map_some]⟩
      obtain ⟨t, rest⟩ := ih fun b member => by
        rw [(editBlockUsers_edited marks edit).isSome_block]
        exact present b (List.mem_cons_of_mem bb member)
      exact ⟨t, by rw [editAllBlockUsers, edit]; exact rest⟩
  obtain ⟨middle, first⟩ := all operands
  obtain ⟨t, rest⟩ := allBlocks (s := middle) fun bb member => by
    rw [(editAllUsers_edited marks first).isSome_block]
    exact targets bb member
  exact ⟨t, by rw [editUsage, first]; exact rest⟩

/-- What replacing an instruction leaves of the data. -/
theorem replaceInstWith_data (isLocal : i.isGlobal = false)
    (replace : s.replaceInstWith i data = some t) :
    (∀ v, (t.instData v).map UsedInst.data =
      if v = i then some data else (s.instData v).map UsedInst.data) ∧
      ∀ bb, t.blockParams bb = s.blockParams bb := by
  obtain ⟨old, found, replace⟩ := Option.bind_eq_some_iff.mp replace
  obtain ⟨middle, erase, replace⟩ := Option.bind_eq_some_iff.mp replace
  obtain ⟨last, add, rfl⟩ := Option.map_eq_some_iff.mp replace
  have erased := editUsage_edited (marks_erase i) erase
  have added := editUsage_edited (marks_insert i) add
  have same := erased.toSameData.trans added.toSameData
  have globals (w : Inst) := (editUsage_globals add w).trans (editUsage_globals erase w)
  rw [setInst_local isLocal] at same ⊢
  simp only [setInst_local isLocal] at globals
  refine ⟨fun v => ?_, fun bb => same.blocks bb⟩
  by_cases here : v = i
  · subst here
    simp [instData, isLocal]
  · simp only [instData, if_neg here]
    split
    · exact globals v
    · have old := same.insts v
      simp only [Function.update_of_ne here] at old ⊢
      exact old

/-- Replacing succeeds when the old and the new operands and targets exist. -/
theorem replaceInstWith_total {old : UsedInst} (isLocal : i.isGlobal = false)
    (found : s.insts i = some old)
    (operands : ∀ v ∈ old.data.kind.instUsage ++ data.kind.instUsage, v ≠ i ∧ (s.instData v).isSome)
    (targets : ∀ bb ∈ old.data.kind.bbUsage ++ data.kind.bbUsage, (s.blocks bb).isSome) :
    ∃ t, s.replaceInstWith i data = some t := by
  have present : ∀ v ∈ old.data.kind.instUsage ++ data.kind.instUsage,
      ((s.setInst i none).instData v).isSome := by
    intro v member
    obtain ⟨differ, known⟩ := operands v member
    rw [setInst_local isLocal]
    simpa [instData, Function.update_of_ne differ] using known
  have isOld : s.instData i = some old := by
    simpa [instData, isLocal] using found
  obtain ⟨middle, erase⟩ := editUsage_total (s := s.setInst i none) (marks_erase i)
    (fun v member => present v (List.mem_append_left _ member)) fun bb member => by
      rw [setInst_local isLocal]
      exact targets bb (List.mem_append_left _ member)
  have erased := editUsage_edited (marks_erase i) erase
  have newOperands : ∀ v ∈ data.kind.instUsage, (middle.instData v).isSome := by
    intro v member
    rw [editUsage_isSome (marks_erase i) erase]
    exact present v (List.mem_append_right _ member)
  have newTargets : ∀ bb ∈ data.kind.bbUsage, (middle.blocks bb).isSome := by
    intro bb member
    rw [erased.isSome_block, setInst_local isLocal]
    exact targets bb (List.mem_append_right _ member)
  obtain ⟨last, add⟩ := editUsage_total (marks_insert i) newOperands newTargets
  exact ⟨_, by rw [replaceInstWith, isOld]; simp only [Option.bind_some, erase, add]; rfl⟩

end Total

end ArenaState

end AnonCompiler.Ir
