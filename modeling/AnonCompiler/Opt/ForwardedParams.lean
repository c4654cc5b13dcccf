import AnonCompiler.Lib.Chains
import AnonCompiler.Ir.Shaped

/-!
# Forwarded block parameters

`forwarded_block_params` of `opt/utils/logical_edge.rs` finds the block parameters to
which every edge into the block passes the same value, and `resolve_forwarded_params`
follows the chains they make to their ends.  The keys of the hash map come in any order.

A parameter has been bound since its value was computed last: the value is defined on
every path to the edges into the block, so a path that computes it again binds the
parameter again before it can be used.
-/

set_option autoImplicit false

namespace AnonCompiler.Opt

open Ir Lib.Chains

def forwardedBlockParams (F : FunctionData) : List (Inst × Inst) :=
  (F.reachable.filter fun block => F.entryBlock ≠ some block).flatMap fun block =>
    (F.blockParams block).zipIdx.filterMap fun (parameter, position) =>
      ((F.incomingEdges block).head?.bind fun edge => edge.args[position]?).bind fun first =>
        if first ≠ parameter ∧
            ∀ edge ∈ F.incomingEdges block, edge.args[position]? = some first then
          some (parameter, first)
        else none

/-- The hash map of the parameters. -/
def forward (forwarded : List (Inst × Inst)) (p : Inst) : Option Inst := forwarded.lookup p

/-- The chains of forwarded parameters, with the keys in the order given. -/
def resolveForwardedParams (forwarded : List (Inst × Inst)) (keys : List Inst) :
    Option (Inst → Option Inst) :=
  (resolveAll (fun cache start =>
      walkThrough (forward forwarded) cache (forwarded.length + 1) [] start) keys fun _ => none).map
    fun cache value => if (forward forwarded value).isSome then (cache value).join else none

/-- The keys of the hash map, in some order. -/
def IsKeyOrder (forwarded : List (Inst × Inst)) (keys : List Inst) : Prop :=
  ∀ p, p ∈ keys ↔ p ∈ forwarded.map Prod.fst

variable {forwarded : List (Inst × Inst)}

theorem forward_isSome_iff {p : Inst} :
    (forward forwarded p).isSome ↔ p ∈ forwarded.map Prod.fst := by
  unfold forward
  induction forwarded with
  | nil => simp
  | cons entry rest ih =>
    obtain ⟨key, value⟩ := entry
    by_cases same : p = key
    · simp [same]
    · rw [List.lookup_cons, beq_eq_false_iff_ne.mpr same]
      simp [same, ih]

/-- What is found: exactly the ends of the chains that have one. -/
theorem resolveForwardedParams_spec {keys : List Inst} (order : IsKeyOrder forwarded keys) :
    ∃ resolved, resolveForwardedParams forwarded keys = some resolved ∧ ∀ p v,
      resolved p = some v ↔ (forward forwarded p).isSome ∧ Leads (forward forwarded) p v := by
  have inKeys : ∀ x, forward forwarded x ≠ none → x ∈ forwarded.map Prod.fst := fun x inside =>
    forward_isSome_iff.mp (Option.isSome_iff_ne_none.mpr inside)
  have total : (resolveAll (fun cache start =>
      walkThrough (forward forwarded) cache (forwarded.length + 1) [] start) keys
      fun _ => none).isSome :=
    resolveAll_total fun start _ final =>
      walkThrough_total inKeys List.nodup_nil (List.nil_subset _) (by simp)
  obtain ⟨cache, run⟩ := Option.isSome_iff_exists.mp total
  have nothing : Resolves (forward forwarded) fun _ => none := fun isKnown => by cases isKnown
  obtain ⟨right, -, all⟩ := resolveAll_spec
    (fun known walked => (walkThrough_finds known .nil walked).1) nothing run
  refine ⟨_, by rw [resolveForwardedParams, run]; rfl, fun p v => ?_⟩
  dsimp only
  split
  · next isKey =>
      have known := all p ((order p).mpr (forward_isSome_iff.mp isKey))
      obtain ⟨resolved, isResolved⟩ := Option.isSome_iff_exists.mp known
      rw [isResolved, Option.join_some, right isResolved]
      exact ⟨fun leads => ⟨isKey, leads⟩, And.right⟩
  · next notKey =>
      exact ⟨fun impossible => (by cases impossible), fun both => absurd both.1 notKey⟩

/-! ## Where the parameter is available its value is -/

/-- Every edge into the block of the parameter `p` passes it the value `x`. -/
def Forwarded (F : FunctionData) (p x : Inst) : Prop :=
  x ≠ p ∧ ∃ (bb : BasicBlock) (i : Nat), F.entryBlock ≠ some bb ∧ (F.blockParams bb)[i]? = some p ∧
    ∀ {b : BasicBlock} {e : LogicalEdge}, F.Reached b → e ∈ F.outgoingEdges b → e.target = bb →
      e.args[i]? = some x

section Paths

variable {F : FunctionData} {bb : BasicBlock} {p x : Inst}

variable {done rest : List Inst}

theorem reachable_of_reached (reached : F.Reached bb) (placed : bb ∈ F.blocks) :
    bb ∈ F.reachable := by
  induction reached with
  | entry isEntry => exact FunctionData.entry_reachable isEntry
  | edge _ leaves ih =>
    obtain ⟨insts, block⟩ := FunctionData.exists_of_edge leaves
    exact FunctionData.reachable_of_edge (ih (FunctionData.mem_blocks block)) leaves placed

theorem forwarded_of_lookup (found : forward (forwardedBlockParams F) p = some x) :
    Forwarded F p x := by
  obtain ⟨bb, isBlock, found⟩ := List.mem_flatMap.mp (mem_of_lookup found)
  obtain ⟨⟨parameter, i⟩, isParam, found⟩ := List.mem_filterMap.mp found
  obtain ⟨first, -, found⟩ := Option.bind_eq_some_iff.mp found
  split at found
  · next same =>
      cases found
      have notEntry := of_decide_eq_true (List.mem_filter.mp isBlock).2
      refine ⟨same.1, bb, i, notEntry, List.mem_zipIdx_iff_getElem?.mp isParam, ?_⟩
      rintro b e reached leaves rfl
      obtain ⟨insts, block⟩ := FunctionData.exists_of_edge leaves
      have placed := reachable_of_reached reached (FunctionData.mem_blocks block)
      exact same.2 e (FunctionData.mem_incomingEdges placed leaves)
  · cases found

/-- The value is available at the edges into the block of the parameter. -/
theorem avail_at_edge (ssa : F.Ssa) {insts : List Inst} (block : F.blockInsts bb = some insts)
    {e : LogicalEdge} (leaves : e ∈ F.outgoingEdges bb) {i : Nat} (isArg : e.args[i]? = some x)
    (notConst : ¬ F.IsConst x) : F.Avail bb insts x := by
  have args := List.mem_of_getElem? isArg
  unfold FunctionData.outgoingEdges at leaves
  split at leaves
  · cases leaves
  · next terminator isTerminator =>
      rw [FunctionData.terminator, block, Option.bind_some] at isTerminator
      obtain ⟨pre, rfl⟩ := List.getLast?_eq_some_iff.mp isTerminator
      have uses : ∀ {kind}, F.kind terminator = some kind → x ∈ kind.instUsage →
          F.Avail bb (pre ++ [terminator]) x := by
        intro kind isKind used
        obtain ⟨data, found, rfl⟩ := Option.map_eq_some_iff.mp isKind
        exact ((ssa.uses block found used).resolve_left notConst).mono
      split at leaves
      · next target args' isKind =>
          obtain rfl := List.mem_singleton.mp leaves
          exact uses isKind args
      · next cond tTarget tArgs fTarget fArgs isKind =>
          refine uses isKind (List.mem_cons_of_mem _ (List.mem_append.mpr ?_))
          rcases List.mem_cons.mp leaves with rfl | isFalse
          · exact .inl args
          · obtain rfl := List.mem_singleton.mp isFalse
            exact .inr args
      · cases leaves

theorem param_not_laidOut (wellFormed : F.WellFormed) (isParam : p ∈ F.blockParams bb) :
    p ∉ F.layoutInsts := fun laidOut => wellFormed.not_param laidOut bb isParam

/-- A parameter is available once its block has been entered. -/
theorem avail_param_iff (wellFormed : F.WellFormed) {bb' : BasicBlock}
    (isParam : p ∈ F.blockParams bb') (block : F.blockInsts bb = some (done ++ rest)) :
    F.Avail bb done p ↔ ¬ F.Missing p bb :=
  or_iff_right fun early => param_not_laidOut wellFormed isParam
    (FunctionData.mem_layoutInsts block (List.mem_append_left _ early))

section

variable (h : Forwarded F p x) (wellFormed : F.WellFormed) (ssa : F.Ssa) (notConst : ¬ F.IsConst x)
include h wellFormed ssa notConst

/-- Without the value the parameter has not been bound either. -/
theorem Forwarded.missing (missing : F.Missing x bb) : F.Missing p bb := by
  obtain ⟨-, target, i, notEntry, isParam, same⟩ := h
  have isMember := List.mem_of_getElem? isParam
  induction missing with
  | @entry bb isEntry _ =>
    refine .entry isEntry fun again => ?_
    obtain rfl := wellFormed.blockParams_unique isMember again
    exact notEntry isEntry
  | @edge bb insts e before block notHere leaves _ ih =>
    refine .edge ih block (fun member => ?_) leaves fun again => ?_
    · exact param_not_laidOut wellFormed isMember (FunctionData.mem_layoutInsts block member)
    · have isTarget := wellFormed.blockParams_unique again isMember
      have available := avail_at_edge ssa block leaves (same before.reached leaves isTarget)
        notConst
      exact available.elim notHere fun available => available before

/-- Where the parameter is available the value is. -/
theorem Forwarded.avail (block : F.blockInsts bb = some (done ++ rest))
    (available : F.Avail bb done p) : F.Avail bb done x := by
  have forwarded := h
  obtain ⟨-, target, i, -, isParam, -⟩ := h
  have bound := (avail_param_iff wellFormed (List.mem_of_getElem? isParam) block).mp available
  exact .inr fun missing => bound (forwarded.missing wellFormed ssa notConst missing)

/-- The value is computed only where the parameter is not available. -/
theorem Forwarded.not_avail (reached : F.Reached bb)
    (block : F.blockInsts bb = some (done ++ x :: rest)) : ¬ F.Avail bb done p := by
  intro available
  have early : x ∈ done := by
    refine (h.avail wellFormed ssa notConst block available).resolve_right fun bound => ?_
    exact (FunctionData.Ssa.missing_own wellFormed block (by simp) reached).elim bound bound
  exact (List.nodup_append.mp (wellFormed.nodup_block block)).2.2 x early x (by simp) rfl

/-- Where the value is bound as a parameter, the forwarded parameter is not available, and
is not bound there. -/
theorem Forwarded.missing_of_param (reached : F.Reached bb) (isParam : x ∈ F.blockParams bb) :
    F.Missing p bb ∧ p ∉ F.blockParams bb := by
  have forwarded := h
  obtain ⟨-, target, i, notEntry, isForwarded, same⟩ := h
  have isMember := List.mem_of_getElem? isForwarded
  by_contra bound
  have never : ∀ {b}, F.Reached b → F.Missing x b := by
    intro b reached
    induction reached with
    | @entry b isEntry =>
      refine .entry isEntry fun again => ?_
      obtain rfl := wellFormed.blockParams_unique again isParam
      have notForwarded : p ∉ F.blockParams b := fun here => by
        obtain rfl := wellFormed.blockParams_unique here isMember
        exact notEntry isEntry
      exact bound ⟨.entry isEntry notForwarded, notForwarded⟩
    | @edge b e before leaves ih =>
      obtain ⟨insts, block⟩ := FunctionData.exists_of_edge leaves
      have noInst : x ∉ insts := fun member =>
        param_not_laidOut wellFormed isParam (FunctionData.mem_layoutInsts block member)
      refine .edge ih block noInst leaves fun again => ?_
      have isTarget := wellFormed.blockParams_unique again isParam
      by_cases here : p ∈ F.blockParams bb
      · obtain rfl := wellFormed.blockParams_unique here isMember
        have available := avail_at_edge ssa block leaves (same before leaves isTarget) notConst
        exact available.elim noInst fun available => available ih
      · refine bound ⟨?_, here⟩
        rw [← isTarget] at here ⊢
        refine .edge (forwarded.missing wellFormed ssa notConst ih) block
          (fun member => ?_) leaves here
        exact param_not_laidOut wellFormed isMember (FunctionData.mem_layoutInsts block member)
  cases never reached with
  | entry _ notParam => exact notParam isParam
  | edge _ _ _ _ notParam => exact notParam isParam

end

end Paths

/-! ## The values -/

section Values

variable {P : Program} {F : FunctionData} {X : Ctx} {a b : Activation} {m m' : Mem}
  {seen : List Seen}

/-- The values and the equations of forwarded parameters that are available. -/
structure Forwards (X : Ctx) (F : FunctionData) (a : Activation) (done : List Inst) : Prop
    extends a.At F done where
  shaped : Env.Shaped F a.env
  equal : ∀ {p x}, Forwarded F p x → F.Avail a.block done p → X.operand F a.env x = a.env p

theorem operand_of_env {env env' : Env} {x : Inst} (same : env' x = env x) :
    X.operand F env' x = X.operand F env x := by
  simp only [Ctx.operand, same]

/-- A parameter is read from the environment. -/
theorem operand_param (wellFormed : F.WellFormed) {bb : BasicBlock} {p : Inst}
    (isParam : p ∈ F.blockParams bb) (env : Env) : X.operand F env p = env p := by
  obtain ⟨data, index, found, isRef⟩ := wellFormed.blockParam isParam
  have notGlobal := wellFormed.isLocal (by simp [found] : F.insts p ≠ none)
  simp [Ctx.operand, Ctx.instData, notGlobal, found, isRef, Ctx.isConst]

theorem Forwarded.isParam {p x : Inst} (h : Forwarded F p x) : ∃ bb, p ∈ F.blockParams bb := by
  obtain ⟨-, bb, i, -, isParam, -⟩ := h
  exact ⟨bb, List.mem_of_getElem? isParam⟩

namespace Forwards

variable {done rest : List Inst} {inst : Inst}

theorem start (wellFormed : F.WellFormed) {func : Function} {frame : Nat} {args : List Val}
    (started : Activation.start F func frame args = some a) : Forwards X F a [] := by
  refine ⟨.start started, .start started, fun {p x} forwarded available => ?_⟩
  obtain ⟨-, bb, i, notEntry, isParam, -⟩ := forwarded
  obtain ⟨entry, insts, isEntry, -, -, rfl⟩ := Activation.start_eq_some.mp started
  refine absurd (FunctionData.Missing.entry isEntry fun again => ?_)
    (available.resolve_left List.not_mem_nil)
  obtain rfl := wellFormed.blockParams_unique (List.mem_of_getElem? isParam) again
  exact notEntry isEntry

section

variable (h : Forwards X F a done)
include h

/-- An instruction is executed that does not leave the block. -/
theorem next (wellFormed : F.WellFormed) (ssa : F.Ssa) (current : a.rest = inst :: rest)
    (notConst : ¬ F.IsConst inst) (sameBlock : b.block = a.block) (moved : b.rest = a.rest.tail)
    (same : ∀ x, x ≠ inst → b.env x = a.env x) (shaped : Env.Shaped F b.env) :
    Forwards X F b (done ++ [inst]) := by
  refine ⟨h.toAt.next current sameBlock moved, shaped, fun {p x} forwarded available => ?_⟩
  rw [sameBlock] at available
  have placed := h.placed current
  obtain ⟨bb, isParam⟩ := forwarded.isParam
  have differ : p ≠ inst := by
    rintro rfl
    exact param_not_laidOut wellFormed isParam (FunctionData.mem_layoutInsts placed (by simp))
  have before := available.before differ
  have notValue : x ≠ inst := by
    rintro rfl
    exact forwarded.not_avail wellFormed ssa notConst h.reached placed before
  rw [operand_of_env (same x notValue), same p differ]
  exact h.equal forwarded before

/-- A block is entered along an edge. -/
theorem enterBlock (types : F.Shaped P) (globals : X.globals = P.globals)
    (wellFormed : F.WellFormed) (ssa : F.Ssa) (current : a.rest = [inst]) {e : LogicalEdge}
    (leaves : e ∈ F.outgoingEdges a.block) {vals : List Val}
    (operands : X.operands F a.env e.args = some vals)
    (entered : a.enterBlock F e.target vals = some b) : Forwards X F b [] := by
  have arrived := h.toAt.enterBlock leaves entered
  obtain ⟨-, insts, block, rfl⟩ := Activation.enterBlock_eq_some.mp entered
  refine ⟨arrived, h.shaped.bindParams _ _, fun {p x} forwarded available => ?_⟩
  have bound := available.resolve_left List.not_mem_nil
  have reached : F.Reached e.target := .edge h.reached leaves
  have notRebound : x ∉ F.blockParams e.target := fun isParam =>
    bound (forwarded.missing_of_param wellFormed ssa
      (not_isConst_of_param wellFormed isParam) reached
      isParam).1
  have sameValue : X.operand F (bindParams F a.env (F.blockParams e.target) vals) x =
      X.operand F a.env x := operand_of_env (bindParams_of_notMem notRebound)
  dsimp only
  rw [sameValue]
  by_cases here : p ∈ F.blockParams e.target
  · obtain ⟨-, bb, i, -, isParam, args⟩ := forwarded
    have isTarget := wellFormed.blockParams_unique here (List.mem_of_getElem? isParam)
    subst isTarget
    have isArg := args h.reached leaves rfl
    obtain ⟨data, index, found, -⟩ := wellFormed.blockParam here
    have count : i < vals.length := by
      rw [Ctx.operands_length operands]
      exact (List.getElem?_eq_some_iff.mp isArg).1
    have isVal := Ctx.operands_getElem operands i
    rw [isArg, Option.bind_some, List.getElem?_eq_getElem count] at isVal
    rw [← isVal, bindParams_position (wellFormed.blockParams_nodup _) isParam
      (List.getElem?_eq_getElem count) found]
    have isTy : P.typeOf F x = some data.ty := by
      have sameTy := congrArg (·[i]?) (types.edge leaves)
      simp only [List.getElem?_map, isArg, isParam, Option.map_some, Option.some.injEq] at sameTy
      rw [sameTy, Program.typeOf, wellFormed.instData_eq found]
      rfl
    rw [Val.fit_eq_self (h.shaped.operand types wellFormed globals isVal.symm isTy)]
  · have atEnd : F.Avail a.block (done ++ [inst]) p := by
      refine .source ?_ leaves here bound
      rw [h.block, current]
    have differ : p ≠ inst := by
      rintro rfl
      obtain ⟨bb, isParam⟩ := forwarded.isParam
      exact param_not_laidOut wellFormed isParam
        (FunctionData.mem_layoutInsts h.block (by simp [current]))
    rw [h.equal forwarded (atEnd.before differ), bindParams_of_notMem here]

theorem openStep (types : F.Shaped P) (globals : X.globals = P.globals) (wellFormed : F.WellFormed)
    (ssa : F.Ssa) (step : OpenStep X F a m seen (.running b m')) :
    ∃ done', Forwards X F b done' := by
  have shaped := h.shaped.openStep types wellFormed step
  cases step with
  | value current effect =>
    exact ⟨_, h.next wellFormed ssa current (not_isConst_of_exec wellFormed effect) rfl rfl
      (fun x differ => Activation.define_env_of_ne differ _) shaped⟩
  | write current effect =>
    exact ⟨_, h.next wellFormed ssa current (not_isConst_of_exec wellFormed effect) rfl rfl
      (fun _ _ => rfl) shaped⟩
  | goto current effect entered =>
    obtain ⟨rfl, edge, leaves, rfl, -, operands⟩ :=
      wellFormed.edge_of_goto (h.placed current) effect
    exact ⟨_, h.enterBlock types globals wellFormed ssa current leaves operands entered⟩
  | call _ current effect resumed =>
    obtain ⟨inst, rest, data, current', found, rfl⟩ := Activation.resume_eq_some.mp resumed
    obtain ⟨rfl, rfl⟩ := List.cons.inj (current.symm.trans current')
    exact ⟨_, h.next wellFormed ssa current (not_isConst_of_exec wellFormed effect) rfl rfl
      (fun x differ => Activation.define_env_of_ne differ _) shaped⟩

/-- Along a chain every value is that of the parameter it starts at. -/
theorem leads (wellFormed : F.WellFormed) (ssa : F.Ssa) {p v : Inst}
    (isForwarded : (forward (forwardedBlockParams F) p).isSome)
    (chain : Leads (forward (forwardedBlockParams F)) p v) (available : F.Avail a.block done p) :
    X.operand F a.env v = a.env p := by
  induction chain with
  | out out =>
    rw [out] at isForwarded
    cases isForwarded
  | @step p x v step later ih =>
    have forwarded := forwarded_of_lookup step
    rw [← h.equal forwarded available]
    cases later with
    | out => rfl
    | @step _ y _ further _ =>
      obtain ⟨bb, isParam⟩ := (forwarded_of_lookup further).isParam
      have notConst := not_isConst_of_param wellFormed isParam
      rw [operand_param wellFormed isParam]
      exact ih (by rw [further]; rfl)
        (forwarded.avail wellFormed ssa notConst h.block available)

end

end Forwards

/-- For every order of the keys the chains are resolved to their ends.  An end is not
forwarded, and has the value of the parameter wherever an execution uses the parameter.
Parameters on a cycle are left out. -/
theorem resolveForwardedParams_sound (wellFormed : F.WellFormed) (ssa : F.Ssa) (types : F.Shaped P)
    {keys : List Inst} (order : IsKeyOrder (forwardedBlockParams F) keys) :
    ∃ resolved, resolveForwardedParams (forwardedBlockParams F) keys = some resolved ∧
      (∀ p v, resolved p = some v → resolved v = none ∧
        ∀ {X : Ctx} {func : Function} {frame : Nat} {args : List Val} {a a' : Activation}
          {m m' : Mem}
          {seen : List Seen} {inst : Inst} {rest : List Inst} {data : InstData},
          X.globals = P.globals → Activation.start F func frame args = some a →
          OpenRun X F a m seen (.running a' m') → a'.rest = inst :: rest →
          F.insts inst = some data → p ∈ data.kind.instUsage →
            X.operand F a'.env p = X.operand F a'.env v) ∧
      ∀ p, Relation.TransGen (Steps (forward (forwardedBlockParams F))) p p →
        resolved p = none := by
  obtain ⟨resolved, run, spec⟩ := resolveForwardedParams_spec order
  refine ⟨resolved, run, fun p v isResolved => ⟨?_, ?_⟩, fun p cycle => ?_⟩
  · obtain ⟨-, chain⟩ := (spec p v).mp isResolved
    refine Option.eq_none_iff_forall_ne_some.mpr fun w further => ?_
    have isForwarded := ((spec v w).mp further).1
    rw [chain.ends] at isForwarded
    cases isForwarded
  · intro X func frame args a a' m m' seen inst rest data globals started run current found used
    obtain ⟨isForwarded, chain⟩ := (spec p v).mp isResolved
    obtain ⟨done, h⟩ := run.invariant (I := fun a => ∃ done, Forwards X F a done)
      (fun ⟨_, h⟩ step => h.openStep types globals wellFormed ssa step) ⟨_,
        .start wellFormed started⟩
    obtain ⟨x, isX⟩ := Option.isSome_iff_exists.mp isForwarded
    obtain ⟨bb, isParam⟩ := (forwarded_of_lookup isX).isParam
    have available := (ssa.uses (h.placed current) found used).resolve_left
      (not_isConst_of_param wellFormed isParam)
    rw [operand_param wellFormed isParam]
    exact (h.leads wellFormed ssa isForwarded chain available).symm
  · refine Option.eq_none_iff_forall_ne_some.mpr fun v isResolved => ?_
    exact not_leads_of_cycle cycle ((spec p v).mp isResolved).2

end Values

/-! ## A chain around a loop -/

/-- `%b1(p): br c, %b2(p), %b1(p)` and `%b2(q): ret q`, entered with `p = x + 1`. -/
def forwardingLoop : Listing where
  retTy := .int32
  name := "forwarding"
  paramsTy := [.int32]
  layout := [(0, [2, 3]), (1, [5]), (2, [7])]
  insts := [(0, ⟨.int32, .blockArgRef 0⟩), (1, ⟨.int32, .integer 1⟩),
    (2, ⟨.int32, .binary .add 0 1⟩),
    (3, ⟨.unit, .jump 1 [2]⟩), (4, ⟨.int32, .blockArgRef 0⟩),
    (5, ⟨.unit, .branch 0 2 [4] 1 [2]⟩), (6, ⟨.int32, .blockArgRef 0⟩), (7, ⟨.unit, .ret (some 6)⟩)]
  nextInst := 8
  blockParams := [(0, [0]), (1, [4]), (2, [6])]
  nextBlock := 3

/-- The parameter of the last block has the sum wherever it is used. -/
theorem resolveForwardedParams_sound_loop :
    ∃ resolved, resolveForwardedParams (forwardedBlockParams forwardingLoop.toFunctionData) [6, 4] =
        some resolved ∧ resolved 6 = some 2 ∧
      ∀ {X : Ctx} {func : Function} {frame : Nat} {args : List Val} {a a' : Activation} {m m' : Mem}
        {seen : List Seen} {rest : List Inst}, X.globals = (fun _ => none) →
        Activation.start forwardingLoop.toFunctionData func frame args = some a →
        OpenRun X forwardingLoop.toFunctionData a m seen (.running a' m') → a'.rest = 7 :: rest →
          X.operand forwardingLoop.toFunctionData a'.env 6 =
            X.operand forwardingLoop.toFunctionData a'.env 2 := by
  have isForwarded : forwardedBlockParams forwardingLoop.toFunctionData = [(4, 2), (6, 4)] := by
    decide
  have table : forwardingLoop.ssaBy [(0, [0]), (1, [0, 2, 4]), (2, [6])] := by decide
  have isSsa := Listing.ssa_toFunctionData table
  have order : IsKeyOrder (forwardedBlockParams forwardingLoop.toFunctionData) [6, 4] := by
    intro p
    rw [isForwarded]
    simp [or_comm]
  obtain ⟨resolved, run, sound, -⟩ := resolveForwardedParams_sound
    (P := ⟨[], [], fun _ => none, [], none⟩)
    (Listing.wellFormed_toFunctionData (L := forwardingLoop) (by decide))
    isSsa
    (Listing.shaped_toFunctionData rfl (by decide)) order
  have isSix : resolved 6 = some 2 := by
    have whole : (resolveForwardedParams [(4, 2), (6, 4)] [6, 4]).map (· 6) =
      some (some 2) := by decide
    rw [← isForwarded, run] at whole
    exact Option.some.inj whole
  refine ⟨resolved, run, isSix, fun globals started run current => ?_⟩
  exact (sound 6 2 isSix).2 globals started run current rfl List.mem_cons_self

end AnonCompiler.Opt
