import AnonCompiler.Ir.ProgramRun
import AnonCompiler.Ir.Cfg

/-!
# Single assignment

Every use of a value is dominated by its definition: the value is defined on every
path from the entry to the use.  What that gives at run time is an equation for
every instruction that only computes: wherever the instruction is available, its
value is what it computes from the present values of its operands
(`Activation.Consistent`), since an operand cannot be defined anew while the
instruction stays available.
-/

set_option autoImplicit false

namespace AnonCompiler.Ir

namespace InstKind

/-- The instruction computes a value from those of its operands. -/
def isPure : InstKind → Bool
  | .binary .. | .select .. | .cast _ | .getElemPtr .. | .fma .. | .vectorSplat _
  | .vectorExtractElement .. | .vectorInsertElement .. | .vectorReduce _ => true
  | _ => false

end InstKind

/-! ## Definitions on every path -/

namespace FunctionData

/-- The value of the operand is known without executing anything. -/
def IsConst (F : FunctionData) (x : Inst) : Prop :=
  x.isGlobal = true ∨ ∃ data, F.insts x = some data ∧ Ctx.isConst data.kind = true

/-- Some path leads from the entry to the block. -/
inductive Reached (F : FunctionData) : BasicBlock → Prop where
  | entry {bb : BasicBlock} (isEntry : F.entryBlock = some bb) : Reached F bb
  | edge {bb : BasicBlock} {e : LogicalEdge} (before : Reached F bb)
      (leaves : e ∈ F.outgoingEdges bb) : Reached F e.target

/-- Some path leads from the entry to the start of the block without a definition of
the value. -/
inductive Missing (F : FunctionData) (x : Inst) : BasicBlock → Prop where
  | entry {bb : BasicBlock} (isEntry : F.entryBlock = some bb) (notParam : x ∉ F.blockParams bb) :
      Missing F x bb
  | edge {bb : BasicBlock} {insts : List Inst} {e : LogicalEdge} (before : Missing F x bb)
      (block : F.blockInsts bb = some insts) (notHere : x ∉ insts) (leaves : e ∈ F.outgoingEdges bb)
      (notParam : x ∉ F.blockParams e.target) : Missing F x e.target

/-- The value has been defined when the instructions `done` of the block have been
executed, whatever way has led to it. -/
def Avail (F : FunctionData) (bb : BasicBlock) (done : List Inst) (x : Inst) : Prop :=
  x ∈ done ∨ ¬ F.Missing x bb

/-- Every use is dominated by its definition, and constants are not laid out. -/
structure Ssa (F : FunctionData) : Prop where
  executable : ∀ {inst data}, inst ∈ F.layoutInsts → F.insts inst = some data →
    Ctx.isConst data.kind = false
  uses : ∀ {bb pre inst post data x}, F.blockInsts bb = some (pre ++ inst :: post) →
    F.insts inst = some data → x ∈ data.kind.instUsage → F.IsConst x ∨ F.Avail bb pre x

variable {F : FunctionData} {bb : BasicBlock} {x v : Inst}

/-- An edge leaves a block of the layout. -/
theorem exists_of_edge {e : LogicalEdge} (leaves : e ∈ F.outgoingEdges bb) :
    ∃ insts, F.blockInsts bb = some insts := by
  cases found : F.blockInsts bb with
  | none => simp [outgoingEdges, terminator, found] at leaves
  | some insts => exact ⟨insts, rfl⟩

theorem Missing.reached (h : F.Missing x bb) : F.Reached bb := by
  induction h with
  | entry isEntry => exact .entry isEntry
  | edge _ _ _ leaves _ ih => exact .edge ih leaves

theorem Avail.mono {done more : List Inst} (h : F.Avail bb done x) : F.Avail bb (done ++ more) x :=
  h.imp_left (List.mem_append_left more)

/-- Executing an instruction makes only its own value available. -/
theorem Avail.before {done : List Inst} {inst : Inst} (h : F.Avail bb (done ++ [inst]) x)
    (differ : x ≠ inst) : F.Avail bb done x := by
  refine h.imp_left fun member => ?_
  rcases List.mem_append.mp member with early | last
  · exact early
  · exact absurd (List.mem_singleton.mp last) differ

/-- What is available at the start of a block, other than its parameters, is so at the
end of the blocks before. -/
theorem Avail.source {insts : List Inst} {e : LogicalEdge} (block : F.blockInsts bb = some insts)
    (leaves : e ∈ F.outgoingEdges bb) (notParam : x ∉ F.blockParams e.target)
    (h : ¬ F.Missing x e.target) : F.Avail bb insts x := by
  by_contra unavailable
  obtain ⟨notHere, missing⟩ := not_or.mp unavailable
  exact h (.edge (not_not.mp missing) block notHere leaves notParam)

end FunctionData

namespace FunctionData.Ssa

variable {F : FunctionData} {bb : BasicBlock} {x v : Inst} {data : InstData}

variable {done rest : List Inst} {bb' : BasicBlock}

/-- What is available is an instruction of the layout or a parameter. -/
theorem avail_defined (reached : F.Reached bb) (block : F.blockInsts bb = some (done ++ rest))
    (h : F.Avail bb done x) : x ∈ F.layoutInsts ∨ ∃ bb', x ∈ F.blockParams bb' := by
  rcases h with early | available
  · exact .inl (mem_layoutInsts block (List.mem_append_left _ early))
  · by_contra undefined
    obtain ⟨notLaidOut, notParam⟩ := not_or.mp undefined
    refine available ?_
    clear block available
    induction reached with
    | entry isEntry => exact .entry isEntry fun isParam => notParam ⟨_, isParam⟩
    | @edge bb e before leaves ih =>
      obtain ⟨insts, inBlock⟩ := exists_of_edge leaves
      refine .edge ih inBlock
        (fun member => notLaidOut (mem_layoutInsts inBlock member)) leaves ?_
      exact fun isParam => notParam ⟨_, isParam⟩

/-- The instructions of a block are not available at its start. -/
theorem missing_own (wellFormed : F.WellFormed) {insts : List Inst}
    (block : F.blockInsts bb' = some insts) (member : x ∈ insts) (reached : F.Reached bb) :
    F.Missing x bb ∨ F.Missing x bb' := by
  have notParam := wellFormed.not_param (mem_layoutInsts block member)
  induction reached with
  | entry isEntry => exact .inl (.entry isEntry (notParam _))
  | @edge bb e before leaves ih =>
    rcases ih with missing | done
    · obtain ⟨insts', inBlock⟩ := exists_of_edge leaves
      by_cases here : x ∈ insts'
      · obtain rfl := wellFormed.block_unique inBlock block here member
        exact .inr missing
      · exact .inl (.edge missing inBlock here leaves (notParam _))
    · exact .inr done

/-- Where both values need the other one first, neither is ever defined. -/
theorem missing_both (wellFormed : F.WellFormed) (differ : x ≠ v) (laidOut : v ∈ F.layoutInsts)
    (atParam : ∀ {bb}, x ∈ F.blockParams bb → ¬ F.Missing v bb)
    (atInst : ∀ {bb pre post}, F.blockInsts bb = some (pre ++ x :: post) → F.Avail bb pre v)
    (atValue : ∀ {bb pre post}, F.blockInsts bb = some (pre ++ v :: post) → F.Avail bb pre x)
    (reached : F.Reached bb) : F.Missing x bb ∧ F.Missing v bb := by
  have neither : ∀ {bb insts}, F.Missing x bb → F.Missing v bb → F.blockInsts bb = some insts →
      x ∉ insts ∧ v ∉ insts := by
    intro bb insts missingX missingV block
    have nodup := wellFormed.nodup_block block
    have first : ∀ {y z : Inst}, y ≠ z → (∀ {pre post}, insts = pre ++ y :: post → z ∈ pre) →
        (∀ {pre post}, insts = pre ++ z :: post → y ∈ pre) → y ∉ insts := by
      intro y z differ needsZ needsY member
      obtain ⟨pre, post, rfl⟩ := List.append_of_mem member
      obtain ⟨p₁, p₂, rfl⟩ := List.append_of_mem (needsZ rfl)
      have again : y ∈ p₁ := needsY (List.append_assoc ..)
      rw [List.append_assoc] at nodup
      exact (List.nodup_append.mp nodup).2.2 y again y (by simp) rfl
    have needsV : ∀ {pre post}, insts = pre ++ x :: post → v ∈ pre := by
      rintro pre post rfl
      exact (atInst block).resolve_right (not_not.mpr missingV)
    have needsX : ∀ {pre post}, insts = pre ++ v :: post → x ∈ pre := by
      rintro pre post rfl
      exact (atValue block).resolve_right (not_not.mpr missingX)
    exact ⟨first differ needsV needsX, first differ.symm needsX needsV⟩
  induction reached with
  | entry isEntry =>
    have missingV := Missing.entry isEntry (wellFormed.not_param laidOut _)
    exact ⟨.entry isEntry fun isParam => atParam isParam missingV, missingV⟩
  | @edge bb e before leaves ih =>
    obtain ⟨missingX, missingV⟩ := ih
    obtain ⟨insts, block⟩ := exists_of_edge leaves
    obtain ⟨noX, noV⟩ := neither missingX missingV block
    have missingV' := Missing.edge missingV block noV leaves (wellFormed.not_param laidOut _)
    exact ⟨.edge missingX block noX leaves fun isParam => atParam isParam missingV', missingV'⟩

/-- The place of an instruction in its block. -/
theorem place_unique (wellFormed : F.WellFormed) {pre post pre' post' : List Inst}
    (block : F.blockInsts bb = some (pre ++ x :: post))
    (block' : F.blockInsts bb' = some (pre' ++ x :: post')) : bb' = bb ∧ pre' = pre := by
  have here : x ∈ pre ++ x :: post := by simp
  have here' : x ∈ pre' ++ x :: post' := by simp
  obtain rfl := wellFormed.block_unique block' block here' here
  refine ⟨rfl, ?_⟩
  have nodup := wellFormed.nodup_block block'
  obtain ⟨-, rest, apart⟩ := List.nodup_append.mp nodup
  have notPre : x ∉ pre' := fun early => apart x early x (List.mem_cons_self ..) rfl
  have same := Option.some.inj (block'.symm.trans block)
  exact ((List.append_cons_inj_of_notMem notPre (List.nodup_cons.mp rest).1).mp same).1

section

variable (ssa : F.Ssa) (wellFormed : F.WellFormed) (found : F.insts v = some data)
  (laidOut : v ∈ F.layoutInsts) (used : x ∈ data.kind.instUsage) (notConst : ¬ F.IsConst x)
include ssa wellFormed found laidOut used notConst

/-- While an operand is computed, its users are not available. -/
theorem not_avail_user (differ : x ≠ v) (reached : F.Reached bb)
    (block : F.blockInsts bb = some (done ++ x :: rest)) : ¬ F.Avail bb done v := by
  intro available
  have laidOutX : x ∈ F.layoutInsts := mem_layoutInsts block (by simp)
  have atInst : ∀ {bb' pre post}, F.blockInsts bb' = some (pre ++ x :: post) →
      F.Avail bb' pre v := by
    intro bb' pre post block'
    obtain ⟨rfl, rfl⟩ := place_unique wellFormed block block'
    exact available
  obtain ⟨missingX, missingV⟩ := missing_both wellFormed differ laidOut
    (fun isParam => absurd isParam (wellFormed.not_param laidOutX _)) atInst
    (fun block' => (ssa.uses block' found used).resolve_left notConst) reached
  have member : v ∈ done := available.resolve_right (not_not.mpr missingV)
  obtain ⟨pre, post, rfl⟩ := List.append_of_mem member
  have nodup := wellFormed.nodup_block block
  rw [List.append_assoc] at block nodup
  have early :=
    ((ssa.uses block found used).resolve_left notConst).resolve_right (not_not.mpr missingX)
  exact (List.nodup_append.mp nodup).2.2 x early x (by simp) rfl

/-- Where a parameter is bound, its users are not available. -/
theorem missing_of_param (reached : F.Reached bb) (isParam : x ∈ F.blockParams bb) :
    F.Missing v bb := by
  by_contra available
  have differ : x ≠ v := by
    rintro rfl
    exact wellFormed.not_param laidOut bb isParam
  have notLaidOut : x ∉ F.layoutInsts := fun inLayout => wellFormed.not_param inLayout bb isParam
  have atParam : ∀ {bb'}, x ∈ F.blockParams bb' → ¬ F.Missing v bb' := by
    intro bb' isParam'
    obtain rfl := wellFormed.blockParams_unique isParam isParam'
    exact available
  have both := missing_both wellFormed differ laidOut atParam
    (fun block => absurd (mem_layoutInsts block (by simp)) notLaidOut)
    (fun block' => (ssa.uses block' found used).resolve_left notConst) reached
  exact available both.2

end

end FunctionData.Ssa

/-! ## Equations at run time -/

/-- Where an activation stands: it has executed `done` of a block that a path leads
to. -/
structure Activation.At (F : FunctionData) (a : Activation) (done : List Inst) : Prop where
  reached : F.Reached a.block
  block : F.blockInsts a.block = some (done ++ a.rest)

/-- Every available instruction that only computes holds what it computes from the
values its operands have now. -/
structure Activation.Consistent (X : Ctx) (F : FunctionData) (a : Activation) (done : List Inst) :
    Prop extends a.At F done where
  equation : ∀ {v data}, F.insts v = some data → v ∈ F.layoutInsts → data.kind.isPure = true →
    F.Avail a.block done v → (X.pureVal F a.env data).map (·.fit data.ty) = a.env v

section Equations

variable {X : Ctx} {F : FunctionData} {a b : Activation} {done : List Inst} {m : Mem} {inst : Inst}
  {rest : List Inst}

/-- What is executed is no constant. -/
theorem not_isConst_of_exec (wellFormed : F.WellFormed) {e : Effect}
    (effect : exec X F a m inst = some e) : ¬ F.IsConst inst := by
  obtain ⟨data, found⟩ := exec_isSome effect
  rintro (isGlobal | ⟨data', found', isConst⟩)
  · rw [wellFormed.isLocal (by simp [found])] at isGlobal
    cases isGlobal
  · obtain rfl := Option.some.inj (found.symm.trans found')
    obtain ⟨ty, kind⟩ := data
    cases kind <;> first
      | exact absurd isConst Bool.false_ne_true
      | simp [exec, found, Ctx.pureVal] at effect

theorem not_isConst_of_param (wellFormed : F.WellFormed) {bb : BasicBlock} {param : Inst}
    (isParam : param ∈ F.blockParams bb) : ¬ F.IsConst param := by
  obtain ⟨data, index, found, isRef⟩ := wellFormed.blockParam isParam
  rintro (isGlobal | ⟨data', found', isConst⟩)
  · rw [wellFormed.isLocal (by simp [found])] at isGlobal
    cases isGlobal
  · obtain rfl := Option.some.inj (found.symm.trans found')
    rw [isRef] at isConst
    cases isConst

/-- The value of an instruction depends on those of its operands only. -/
theorem Ctx.pureVal_of_env {env env' : Env} {data : InstData}
    (same : ∀ x ∈ data.kind.instUsage, env' x = env x) :
    X.pureVal F env' data = X.pureVal F env data :=
  have operand : ∀ x ∈ data.kind.instUsage, X.operand F env' x = X.operand F env x :=
    fun x used => by
    simp only [operand, same x used]
  pureVal_congr fun x used =>
    ⟨⟨fun h => (operand x used).trans h, fun {data} h => ⟨data, h, rfl⟩⟩,
      ⟨fun h => (operand x used).symm.trans h, fun {data} h => ⟨data, h, rfl⟩⟩⟩

namespace Activation.At

theorem start {func : Function} {frame : Nat} {args : List Val}
    (started : Activation.start F func frame args = some a) : a.At F [] := by
  obtain ⟨entry, insts, isEntry, -, block, rfl⟩ := Activation.start_eq_some.mp started
  exact ⟨.entry isEntry, block⟩

theorem next (h : a.At F done) (current : a.rest = inst :: rest) (sameBlock : b.block = a.block)
    (moved : b.rest = a.rest.tail) : b.At F (done ++ [inst]) := by
  refine ⟨sameBlock ▸ h.reached, ?_⟩
  rw [sameBlock, h.block, moved, current, List.append_assoc]
  rfl

theorem placed (h : a.At F done) (current : a.rest = inst :: rest) :
    F.blockInsts a.block = some (done ++ inst :: rest) := by
  rw [h.block, current]

theorem enterBlock (h : a.At F done) {e : LogicalEdge} (leaves : e ∈ F.outgoingEdges a.block)
    {vals : List Val} (entered : a.enterBlock F e.target vals = some b) : b.At F [] := by
  obtain ⟨-, insts, block, rfl⟩ := Activation.enterBlock_eq_some.mp entered
  exact ⟨.edge h.reached leaves, block⟩

end Activation.At

namespace Activation.Consistent

theorem start (wellFormed : F.WellFormed) {func : Function} {frame : Nat} {args : List Val}
    (started : Activation.start F func frame args = some a) : a.Consistent X F [] := by
  refine ⟨.start started, ?_⟩
  intro v data found laidOut _ available
  obtain ⟨entry, insts, isEntry, -, block, rfl⟩ := Activation.start_eq_some.mp started
  have missing : F.Missing v entry := .entry isEntry (wellFormed.not_param laidOut _)
  rcases available with early | available
  · cases early
  · exact absurd missing available

section

variable (h : a.Consistent X F done) (wellFormed : F.WellFormed) (ssa : F.Ssa)
include h wellFormed ssa

/-- An instruction that has no equation is executed. -/
theorem next (current : a.rest = inst :: rest) {data : InstData} (found : F.insts inst = some data)
    (notConst : ¬ F.IsConst inst) (sameBlock : b.block = a.block) (moved : b.rest = a.rest.tail)
    (same : ∀ x, x ≠ inst → b.env x = a.env x)
    (isValue : data.kind.isPure = true →
      (X.pureVal F a.env data).map (·.fit data.ty) = b.env inst) :
    b.Consistent X F (done ++ [inst]) := by
  refine ⟨h.toAt.next current sameBlock moved, ?_⟩
  intro v data' found' laidOut isPure available
  rw [sameBlock] at available
  by_cases isInst : v = inst
  · subst isInst
    obtain rfl := Option.some.inj (found.symm.trans found')
    rw [← isValue isPure, Ctx.pureVal_of_env fun x used => same x ?_]
    rintro rfl
    exact wellFormed.ordered (h.placed current) found used (List.mem_cons_self ..)
  · have before := available.before isInst
    rw [same v isInst, ← h.equation found' laidOut isPure before,
      Ctx.pureVal_of_env fun x used => same x ?_]
    rintro rfl
    exact ssa.not_avail_user wellFormed found' laidOut used notConst (Ne.symm isInst) h.reached
      (h.placed current) before

/-- Entering a block. -/
theorem enterBlock (current : a.rest = [inst]) {e : LogicalEdge}
    (leaves : e ∈ F.outgoingEdges a.block) {vals : List Val}
    (entered : a.enterBlock F e.target vals = some b)
    (notPure : ∀ data, F.insts inst = some data → data.kind.isPure = false) :
    b.Consistent X F [] := by
  refine ⟨h.toAt.enterBlock leaves entered, ?_⟩
  obtain ⟨-, insts, block, rfl⟩ := Activation.enterBlock_eq_some.mp entered
  intro v data found laidOut isPure available
  have atEnd : F.Avail a.block (done ++ [inst]) v := by
    refine .source ?_ leaves (wellFormed.not_param laidOut _)
      (available.resolve_left (List.not_mem_nil))
    rw [h.block, current]
  have isOther : v ≠ inst := by
    rintro rfl
    rw [notPure data found] at isPure
    cases isPure
  have equation := h.equation found laidOut isPure (atEnd.before isOther)
  have same : ∀ x, x ∉ F.blockParams e.target →
      bindParams F a.env (F.blockParams e.target) vals x = a.env x := fun x other =>
    bindParams_of_notMem other
  dsimp only
  rw [same v (wellFormed.not_param laidOut _), ← equation,
    Ctx.pureVal_of_env fun x used => same x ?_]
  intro isParam
  have reached : F.Reached e.target := .edge h.reached leaves
  exact available.resolve_left (List.not_mem_nil)
    (ssa.missing_of_param wellFormed found laidOut used
    (not_isConst_of_param wellFormed isParam) reached isParam)

section

variable (current : a.rest = inst :: rest)
include current

/-- An instruction that computes a value. -/
theorem value {v : Val} (effect : exec X F a m inst = some (.value v)) :
    (a.define inst v).Consistent X F (done ++ [inst]) := by
  obtain ⟨data, found⟩ := exec_isSome effect
  refine h.next wellFormed ssa current found (not_isConst_of_exec wellFormed effect) rfl rfl
    (fun x differ => Activation.define_env_of_ne differ v) ?_
  intro isPure
  cases executes_of_exec found effect with
  | alloc kind | load kind =>
    rw [kind] at isPure
    cases isPure
  | pure value => simp [value, Activation.define]

/-- An instruction that writes memory. -/
theorem write {m' : Mem} (effect : exec X F a m inst = some (.write m')) :
    a.next.Consistent X F (done ++ [inst]) := by
  obtain ⟨data, found⟩ := exec_isSome effect
  refine h.next wellFormed ssa current found (not_isConst_of_exec wellFormed effect) rfl rfl
    (fun _ _ => rfl) ?_
  intro isPure
  cases executes_of_exec found effect with
  | store kind | memZero kind =>
    rw [kind] at isPure
    cases isPure

/-- The value of a call comes back. -/
theorem resume {callee : Function} {args : List Val} {returned : Option Val}
    (effect : exec X F a m inst = some (.call callee args))
    (resumed : a.resume F returned = some b) :
    b.Consistent X F (done ++ [inst]) := by
  obtain ⟨inst', rest', data, current', found, rfl⟩ := Activation.resume_eq_some.mp resumed
  obtain ⟨rfl, rfl⟩ := List.cons.inj (current.symm.trans current')
  refine h.next wellFormed ssa current found (not_isConst_of_exec wellFormed effect) rfl rfl
    (fun x differ => Activation.define_env_of_ne differ _) ?_
  intro isPure
  cases executes_of_exec found effect with
  | call kind =>
    rw [kind] at isPure
    cases isPure

/-- A transfer of control. -/
theorem goto {target : BasicBlock} {vals : List Val}
    (effect : exec X F a m inst = some (.goto target vals))
    (entered : a.enterBlock F target vals = some b) : b.Consistent X F [] := by
  have notPure : ∀ data, F.insts inst = some data → data.kind.isPure = false := by
    intro data found
    cases executes_of_exec found effect with
    | jump kind | branch kind =>
      rw [kind]
      rfl
  obtain ⟨rfl, edge, leaves, rfl, -⟩ := wellFormed.edge_of_goto (h.placed current) effect
  exact h.enterBlock wellFormed ssa current leaves entered notPure

end

end

end Activation.Consistent

end Equations

/-! ## Functions given by lists -/

namespace Listing

variable (L : Listing) (table : List (BasicBlock × List Inst))

def isConstant (x : Inst) : Bool :=
  x.isGlobal || (L.insts.lookup x).any fun data => Ctx.isConst data.kind

/-- What the table says is available at the start of a block. -/
def availableAt (bb : BasicBlock) : List Inst := (table.lookup bb).getD []

/-- The instructions use constants and what has been seen. -/
def usesSeen : List Inst → List Inst → Bool
  | _, [] => true
  | seen, inst :: rest =>
    ((L.insts.lookup inst).all fun data => data.kind.instUsage.all fun x =>
      L.isConstant x || x ∈ seen) && usesSeen (inst :: seen) rest

/-- `FunctionData.Ssa`, as a check of what is available at the start of the blocks. -/
def ssaBy : Bool :=
  (L.layout.all fun entry => entry.2.all fun inst =>
    (L.insts.lookup inst).all fun data => !Ctx.isConst data.kind) &&
  (L.toFunctionData.entryBlock.all fun entry =>
    (availableAt table entry).all (· ∈ L.blockParamsOf entry)) &&
  (L.layout.all fun entry => (L.toFunctionData.outgoingEdges entry.1).all fun e =>
    (availableAt table e.target).all fun x =>
      x ∈ availableAt table entry.1 || x ∈ entry.2 || x ∈ L.blockParamsOf e.target) &&
  L.layout.all fun entry => L.usesSeen (availableAt table entry.1) entry.2

variable {L table}

theorem usesSeen_spec {seen done rest : List Inst} {inst x : Inst} {data : InstData}
    (h : L.usesSeen seen (done ++ inst :: rest) = true) (found : L.insts.lookup inst = some data)
    (used : x ∈ data.kind.instUsage) : L.isConstant x = true ∨ x ∈ done ∨ x ∈ seen := by
  induction done generalizing seen with
  | nil =>
    obtain ⟨here, -⟩ := Bool.and_eq_true_iff.mp h
    rw [found, Option.all_some, List.all_eq_true] at here
    have known := here x used
    rw [Bool.or_eq_true, decide_eq_true_eq] at known
    exact known.imp_right .inr
  | cons first done ih =>
    rcases ih (Bool.and_eq_true_iff.mp h).2 with const | early | seen
    · exact .inl const
    · exact .inr (.inl (List.mem_cons_of_mem _ early))
    · rcases List.mem_cons.mp seen with rfl | before
      · exact .inr (.inl List.mem_cons_self)
      · exact .inr (.inr before)

theorem isConst_of_isConstant {x : Inst} (h : L.isConstant x = true) :
    L.toFunctionData.IsConst x := by
  rcases Bool.or_eq_true_iff.mp h with isGlobal | isLocal
  · exact .inl isGlobal
  · obtain ⟨data, found, isConst⟩ := Option.any_eq_true _ _ |>.mp isLocal
    exact .inr ⟨data, found, isConst⟩

theorem ssa_toFunctionData (h : L.ssaBy table = true) : L.toFunctionData.Ssa := by
  simp only [ssaBy, Bool.and_eq_true, List.all_eq_true] at h
  obtain ⟨⟨⟨executable, atEntry⟩, atEdge⟩, uses⟩ := h
  have available : ∀ {bb x}, L.toFunctionData.Missing x bb → x ∉ availableAt table bb := by
    intro bb x missing
    induction missing with
    | entry isEntry notParam =>
      intro member
      rw [isEntry, Option.all_some, List.all_eq_true] at atEntry
      exact notParam (of_decide_eq_true (atEntry x member))
    | @edge bb insts e _ block notHere leaves notParam ih =>
      intro member
      have known := atEdge _ (FunctionData.mem_of_blockInsts block) e leaves x member
      simp only [Bool.or_eq_true, decide_eq_true_eq] at known
      rcases known with (before | here) | isParam
      · exact ih before
      · exact notHere here
      · exact notParam isParam
  refine ⟨?_, ?_⟩
  · intro inst data laidOut found
    obtain ⟨entry, member, inside⟩ := List.mem_flatMap.mp laidOut
    have found' : L.insts.lookup inst = some data := found
    simpa [found'] using executable entry member inst inside
  · intro bb pre inst post data x block found used
    rcases usesSeen_spec (uses _ (FunctionData.mem_of_blockInsts block)) found used with
      const | early | seen
    · exact .inl (isConst_of_isConstant const)
    · exact .inr (.inl early)
    · exact .inr (.inr fun missing => available missing seen)

end Listing

end AnonCompiler.Ir
