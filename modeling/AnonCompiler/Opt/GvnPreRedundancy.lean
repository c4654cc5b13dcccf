import AnonCompiler.Opt.GvnPreLeaders

/-!
# The redundancies of a function

An operation at a join is redundant when every edge of the join can compute it from
what it passes on, and the leaders of the edges differ, or one edge alone has none
(`Redundant`).  The search of the pass finds the first redundancy in the order of the
blocks and of their instructions, and comes back without one exactly when the function
has none.
-/

set_option autoImplicit false

namespace AnonCompiler.Opt.GvnPre

open Ir

/-! ## Redundancies -/

/-- One edge has no leader, or they all have one and two of them differ. -/
def Worth (incoming : List Incoming) : Prop :=
  (∃ before missing after, incoming = before ++ missing :: after ∧ missing.leader = none ∧
      ∀ other ∈ before ++ after, other.leader.isSome) ∨
    ((∀ other ∈ incoming, other.leader.isSome) ∧
      ∃ one ∈ incoming, ∃ other ∈ incoming, one.leader ≠ other.leader)

section Redundancy

variable (arena : Arena) (F : FunctionData) (G : CFG) (T : DominanceTree)

/-- What an edge brings for an operation of its target: the operands as it passes them
on, and the leader at its source, when it has the type of the operation and is there at
the terminator. -/
structure Brings (params : List Inst) (recomputation : Inst) (op : BinaryOp) (lhs rhs : Inst)
    (edge : LogicalEdge) (incoming : Incoming) : Prop where
  isLhs : translatedOperand params edge lhs = some incoming.lhs
  isRhs : translatedOperand params edge rhs = some incoming.rhs
  candidate : Candidate arena op incoming.lhs incoming.rhs
  lhsAvailable : valueAvailableBefore arena F G T edge.source edge.terminator incoming.lhs = true
  rhsAvailable : valueAvailableBefore arena F G T edge.source edge.terminator incoming.rhs = true
  leader : ∀ leader, incoming.leader = some leader ↔
    Leads arena F T edge.source op incoming.lhs incoming.rhs leader ∧
      arena.typeOf leader = arena.typeOf recomputation ∧
        valueAvailableBefore arena F G T edge.source edge.terminator leader = true

/-- A redundancy, with all that its rewrite needs. -/
structure Redundant (rewrite : Rewrite) : Prop where
  isBlock : rewrite.bb ∈ G.blocks
  isJoin : isJoin arena F G T rewrite.bb = true
  member : rewrite.recomputation ∈ (F.blockInsts rewrite.bb).getD []
  edges : rewrite.edges = G.incomingEdges F rewrite.bb
  operation : ∃ lhs rhs, arena rewrite.recomputation = some ⟨.int32, .binary rewrite.op lhs rhs⟩ ∧
    Candidate arena rewrite.op lhs rhs ∧
      List.Forall₂ (Brings arena F G T (F.blockParams rewrite.bb) rewrite.recomputation rewrite.op
        lhs rhs) rewrite.edges rewrite.incoming
  worth : Worth rewrite.incoming

/-- The redundancy of one instruction of a block. -/
def RedundantAt (place : BasicBlock × Inst) (rewrite : Rewrite) : Prop :=
  (rewrite.bb, rewrite.recomputation) = place ∧ Redundant arena F G T rewrite

/-- The instructions of the joins, in the order of the blocks. -/
def places (blocks : List BasicBlock) : List (BasicBlock × Inst) :=
  (blocks.filter fun bb => isJoin arena F G T bb).flatMap fun bb =>
    ((F.blockInsts bb).getD []).map fun inst => (bb, inst)

/-- The redundancy of the first place that has one. -/
def FirstIn : List (BasicBlock × Inst) → Rewrite → Prop
  | [], _ => False
  | place :: places, rewrite => RedundantAt arena F G T place rewrite ∨
      ((∀ other, ¬ RedundantAt arena F G T place other) ∧ FirstIn places rewrite)

end Redundancy

variable {arena : Arena} {F : FunctionData} {G : CFG} {T : DominanceTree} {fuel : Nat}
  {N N' : ValueNumbers}

variable {place : BasicBlock × Inst} {rewrite : Rewrite} {list : List (BasicBlock × Inst)}
  {blocks : List BasicBlock} {bb : BasicBlock}

theorem brings_rightUnique {params : List Inst} {recomputation : Inst} {op : BinaryOp}
    {lhs rhs : Inst} :
    Relator.RightUnique (Brings arena F G T params recomputation op lhs rhs) := by
  rintro edge ⟨leader, l, r⟩ ⟨leader', l', r'⟩ brings brings'
  obtain rfl : l = l' := Option.some.inj (brings.isLhs.symm.trans brings'.isLhs)
  obtain rfl : r = r' := Option.some.inj (brings.isRhs.symm.trans brings'.isRhs)
  obtain rfl : leader = leader' := by
    ext found
    exact (brings.leader found).trans (brings'.leader found).symm
  rfl

/-- An instruction has one redundancy at most. -/
theorem RedundantAt.unique {rewrite' : Rewrite} (redundant : RedundantAt arena F G T place rewrite)
    (redundant' : RedundantAt arena F G T place rewrite') : rewrite = rewrite' := by
  obtain ⟨bb, recomputation, op, edges, incoming⟩ := rewrite
  obtain ⟨bb', recomputation', op', edges', incoming'⟩ := rewrite'
  obtain ⟨rfl, redundant⟩ := redundant
  obtain ⟨same, redundant'⟩ := redundant'
  cases same
  have sameEdges : edges = edges' := redundant.edges.trans redundant'.edges.symm
  obtain ⟨lhs, rhs, isData, -, all⟩ := redundant.operation
  obtain ⟨lhs', rhs', isData', -, all'⟩ := redundant'.operation
  dsimp only at all all'
  cases isData.symm.trans isData'
  subst sameEdges
  rw [brings_rightUnique.forall₂ all all']

theorem firstIn_append {before after : List (BasicBlock × Inst)} :
    FirstIn arena F G T (before ++ after) rewrite ↔ FirstIn arena F G T before rewrite ∨
      ((∀ other, ¬ FirstIn arena F G T before other) ∧ FirstIn arena F G T after rewrite) := by
  induction before with
  | nil => simp [FirstIn]
  | cons place before ih =>
    simp only [List.cons_append, FirstIn, ih, not_or, not_and, forall_and]
    constructor
    · rintro (here | ⟨notHere, later | ⟨notLater, found⟩⟩)
      · exact .inl (.inl here)
      · exact .inl (.inr ⟨notHere, later⟩)
      · exact .inr ⟨⟨notHere, fun other _ => notLater other⟩, found⟩
    · rintro ((here | ⟨notHere, later⟩) | ⟨⟨notHere, notLater⟩, found⟩)
      · exact .inl here
      · exact .inr ⟨notHere, .inl later⟩
      · exact .inr ⟨notHere, .inr ⟨fun other => notLater other notHere, found⟩⟩

theorem FirstIn.redundant (first : FirstIn arena F G T list rewrite) :
    Redundant arena F G T rewrite := by
  induction list with
  | nil => exact first.elim
  | cons place list ih =>
    rcases first with here | ⟨-, later⟩
    · exact here.2
    · exact ih later

/-- A list with a redundant place has a first one. -/
theorem exists_firstIn (member : place ∈ list) (redundant : RedundantAt arena F G T place rewrite) :
    ∃ first, FirstIn arena F G T list first := by
  induction list with
  | nil => cases member
  | cons head list ih =>
    by_cases here : ∃ first, RedundantAt arena F G T head first
    · obtain ⟨first, here⟩ := here
      exact ⟨first, .inl here⟩
    · rcases List.mem_cons.mp member with rfl | later
      · exact absurd ⟨rewrite, redundant⟩ here
      · obtain ⟨first, later⟩ := ih later
        exact ⟨first, .inr ⟨fun other isHere => here ⟨other, isHere⟩, later⟩⟩

theorem mem_places {inst : Inst} :
    (bb, inst) ∈ places arena F G T blocks ↔
      bb ∈ blocks ∧ isJoin arena F G T bb = true ∧ inst ∈ (F.blockInsts bb).getD [] := by
  simp only [places, List.mem_flatMap, List.mem_filter, List.mem_map, Prod.mk.injEq]
  constructor
  · rintro ⟨bb', ⟨member, isJoin⟩, inst', inside, rfl, rfl⟩
    exact ⟨member, isJoin, inside⟩
  · rintro ⟨member, isJoin, inside⟩
    exact ⟨bb, ⟨member, isJoin⟩, inst, inside, rfl, rfl⟩

/-! ## The search -/

theorem filter_eq_singleton_iff {α : Type} {p : α → Bool} {xs : List α} :
    (∃ x, xs.filter p = [x]) ↔ ∃ before x after, xs = before ++ x :: after ∧ p x = true ∧
      ∀ y ∈ before ++ after, p y = false := by
  constructor
  · rintro ⟨x, only⟩
    obtain ⟨before, after, rfl, none, isSo, last⟩ := List.filter_eq_cons_iff.mp only
    refine ⟨before, x, after, rfl, isSo, fun y member => ?_⟩
    rcases List.mem_append.mp member with early | late
    · simpa using none y early
    · simpa using List.filter_eq_nil_iff.mp last y late
  · rintro ⟨before, x, after, rfl, isSo, others⟩
    have none : before.filter p = [] := List.filter_eq_nil_iff.mpr fun y member => by
      simp [others y (List.mem_append_left _ member)]
    have last : after.filter p = [] := List.filter_eq_nil_iff.mpr fun y member => by
      simp [others y (List.mem_append_right _ member)]
    exact ⟨x, by simp [isSo, none, last]⟩

theorem isRewrite_iff (incoming : List Incoming) : isRewrite incoming = true ↔ Worth incoming := by
  have single := @filter_eq_singleton_iff _ (fun i : Incoming => i.leader.isNone) incoming
  simp only [Option.isNone_iff_eq_none, Option.isNone_eq_false_iff] at single
  unfold isRewrite Worth
  rw [← single]
  split
  · next all =>
      have present : ∀ i ∈ incoming, i.leader.isSome := by
        intro i member
        simpa [Option.isSome_iff_ne_none] using List.filter_eq_nil_iff.mp all i member
      rw [or_iff_right (by rintro ⟨x, only⟩; cases all.symm.trans only),
        and_iff_right present]
      cases incoming with
      | nil => simp
      | cons first incoming =>
        simp only [List.head?_cons, Option.bind_some, Bool.not_eq_true', List.all_eq_false]
        constructor
        · rintro ⟨i, member, differ⟩
          exact ⟨i, member, first, List.mem_cons_self, fun same => differ (decide_eq_true same)⟩
        · rintro ⟨i, member, j, member', differ⟩
          by_cases same : i.leader = first.leader
          · refine ⟨j, member', fun same' => differ ?_⟩
            exact same.trans (of_decide_eq_true same').symm
          · exact ⟨i, member, fun same' => same (of_decide_eq_true same')⟩
  · next missing only => exact iff_of_true rfl (.inl ⟨missing, only⟩)
  · next some notOne =>
      refine iff_of_false (by simp) ?_
      rintro (⟨missing, only⟩ | ⟨present, -⟩)
      · exact notOne missing only
      · refine some (List.filter_eq_nil_iff.mpr fun i member => ?_)
        simpa [Option.isSome_iff_ne_none] using present i member

/-- The table answers for the edge. -/
def AnswersFor (arena : Arena) (F : FunctionData) (T : DominanceTree)
    (output : List ((BasicBlock × Expr) × Inst)) (N : ValueNumbers) (params : List Inst)
    (op : BinaryOp) (lhs rhs : Inst) (edge : LogicalEdge) : Prop :=
  ∀ lhs' rhs', translatedOperand params edge lhs = some lhs' →
    translatedOperand params edge rhs = some rhs' → ∀ N' e, N'.Ok arena → N.Extends N' →
      N'.IsExpr arena op lhs' rhs' e → ∀ leader, output.lookup (edge.source, e) = some leader ↔
        Leads arena F T edge.source op lhs' rhs' leader

variable {output : List ((BasicBlock × Expr) × Inst)} {params : List Inst} {op : BinaryOp}
  {lhs rhs recomputation : Inst} {N₀ : ValueNumbers}

theorem edgeLeaders_spec {edges : List LogicalEdge} {found : Option (List Incoming)}
    (answers : ∀ edge ∈ edges, AnswersFor arena F T output N₀ params op lhs rhs edge)
    (ok : N.Ok arena) (grown : N₀.Extends N)
    (ran : edgeLeaders arena F G T fuel output params recomputation op lhs rhs edges N =
      some (found, N')) :
    N'.Ok arena ∧ N.Extends N' ∧ ∀ incoming, found = some incoming ↔
      List.Forall₂ (Brings arena F G T params recomputation op lhs rhs) edges incoming := by
  induction edges generalizing N found with
  | nil =>
    cases ran
    exact ⟨ok, .refl _, fun incoming => by simp [eq_comm]⟩
  | cons edge edges ih =>
    obtain ⟨answersHere, answersLater⟩ := List.forall_mem_cons.mp answers
    -- an edge that cannot take part
    have refused : ∀ {M}, M.Ok arena → N.Extends M →
        (∀ i, ¬ Brings arena F G T params recomputation op lhs rhs edge i) →
        found = none → M = N' → N'.Ok arena ∧ N.Extends N' ∧ ∀ incoming, found = some incoming ↔
          List.Forall₂ (Brings arena F G T params recomputation op lhs rhs) (edge :: edges)
            incoming := by
      rintro M okM grownM refuses rfl rfl
      refine ⟨okM, grownM, fun incoming => iff_of_false (by simp) fun all => ?_⟩
      obtain ⟨i, _, brings, -, -⟩ := List.forall₂_cons_left_iff.mp all
      exact refuses i brings
    rw [edgeLeaders] at ran
    split at ran
    · next lhs' rhs' isLhs isRhs =>
        have operands : ∀ {i}, Brings arena F G T params recomputation op lhs rhs edge i →
            i.lhs = lhs' ∧ i.rhs = rhs' := fun brings =>
          ⟨Option.some.inj (brings.isLhs.symm.trans isLhs),
            Option.some.inj (brings.isRhs.symm.trans isRhs)⟩
        split at ran
        · cases ran
        · next M isNone =>
            cases ran
            have spec := ValueNumbers.expr_spec ok isNone
            refine refused spec.ok spec.grown (fun i brings => ?_) rfl rfl
            obtain ⟨rfl, rfl⟩ := operands brings
            exact spec.none rfl brings.candidate
        · next e M isSome =>
            have spec := ValueNumbers.expr_spec ok isSome
            split at ran
            · next both =>
                obtain ⟨lhsThere, rhsThere⟩ := (Bool.and_eq_true _ _).mp both
                obtain ⟨⟨rest, M'⟩, ranRest, same⟩ := Option.map_eq_some_iff.mp ran
                cases same
                obtain ⟨ok', grown', restIff⟩ :=
                  ih answersLater spec.ok (grown.trans spec.grown) ranRest
                refine ⟨ok', spec.grown.trans grown', fun incoming => ?_⟩
                have lookup := answersHere lhs' rhs' isLhs isRhs M e spec.ok
                  (grown.trans spec.grown) (spec.some rfl)
                have brings : Brings arena F G T params recomputation op lhs rhs edge
                    ⟨(output.lookup (edge.source, e)).filter fun leader =>
                      arena.typeOf leader = arena.typeOf recomputation &&
                        valueAvailableBefore arena F G T edge.source edge.terminator leader,
                      lhs', rhs'⟩ := by
                  refine ⟨isLhs, isRhs, (spec.some rfl).1, lhsThere, rhsThere, fun leader => ?_⟩
                  simp only [Option.filter_eq_some_iff, lookup, Bool.and_eq_true, decide_eq_true_eq]
                rw [List.forall₂_cons_left_iff, Option.map_eq_some_iff]
                constructor
                · rintro ⟨others, isRest, rfl⟩
                  exact ⟨_, others, brings, (restIff others).mp isRest, rfl⟩
                · rintro ⟨i, others, brings', all, rfl⟩
                  exact ⟨others, (restIff others).mpr all,
                    by rw [brings_rightUnique brings brings']⟩
            · next notBoth =>
                cases ran
                refine refused spec.ok spec.grown (fun i brings => ?_) rfl rfl
                obtain ⟨rfl, rfl⟩ := operands brings
                exact notBoth ((Bool.and_eq_true _ _).mpr
                  ⟨brings.lhsAvailable, brings.rhsAvailable⟩)
    · next missing =>
        cases ran
        refine refused ok (.refl _) (fun i brings => ?_) rfl rfl
        exact missing _ _ brings.isLhs brings.isRhs

/-- The table answers for the operations of the list. -/
def AnswersAll (arena : Arena) (F : FunctionData) (G : CFG) (T : DominanceTree)
    (output : List ((BasicBlock × Expr) × Inst)) (N : ValueNumbers) (bb : BasicBlock)
    (insts : List Inst) : Prop :=
  ∀ inst ∈ insts, ∀ ty op lhs rhs, arena inst = some ⟨ty, .binary op lhs rhs⟩ →
    ∀ edge ∈ G.incomingEdges F bb, AnswersFor arena F T output N (F.blockParams bb) op lhs rhs edge

theorem findInBlock_spec {insts : List Inst} {found : Option Rewrite}
    (answers : AnswersAll arena F G T output N₀ bb insts) (isBlock : bb ∈ G.blocks)
    (joins : isJoin arena F G T bb = true) (inside : insts ⊆ (F.blockInsts bb).getD [])
    (ok : N.Ok arena) (grown : N₀.Extends N)
    (ran : findInBlock arena F G T fuel output bb (G.incomingEdges F bb) insts N =
    some (found, N')) :
    N'.Ok arena ∧ N.Extends N' ∧ ∀ rewrite, found = some rewrite ↔
      FirstIn arena F G T (insts.map fun inst => (bb, inst)) rewrite := by
  induction insts generalizing N with
  | nil =>
    cases ran
    exact ⟨ok, .refl _, fun rewrite => iff_of_false (by simp) id⟩
  | cons inst insts ih =>
    obtain ⟨answersHere, answersLater⟩ := List.forall_mem_cons.mp answers
    obtain ⟨insideHere, insideLater⟩ := List.cons_subset.mp inside
    -- an instruction without a redundancy
    have skipped : ∀ {M}, M.Ok arena → N.Extends M →
        (∀ rewrite, ¬ RedundantAt arena F G T (bb, inst) rewrite) →
        findInBlock arena F G T fuel output bb (G.incomingEdges F bb) insts M =
          some (found, N') →
        N'.Ok arena ∧ N.Extends N' ∧ ∀ rewrite, found = some rewrite ↔
          FirstIn arena F G T ((inst :: insts).map fun inst => (bb, inst)) rewrite := by
      intro M okM grownM none ranRest
      obtain ⟨ok', grown', rest⟩ :=
        ih answersLater insideLater okM (grown.trans grownM) ranRest
      refine ⟨ok', grownM.trans grown', fun rewrite => (rest rewrite).trans ?_⟩
      rw [List.map_cons, FirstIn]
      constructor
      · exact fun first => .inr ⟨none, first⟩
      · rintro (here | ⟨-, later⟩)
        · exact absurd here (none rewrite)
        · exact later
    rw [findInBlock] at ran
    split at ran
    · cases ran
    · next ty op lhs rhs isData =>
        -- what a redundancy here says of the operation
        have operation : ∀ {rewrite}, RedundantAt arena F G T (bb, inst) rewrite →
            ty = .int32 ∧ rewrite.op = op ∧ Candidate arena op lhs rhs ∧
              rewrite.edges = G.incomingEdges F bb ∧
                List.Forall₂ (Brings arena F G T (F.blockParams bb) inst op lhs rhs)
                  (G.incomingEdges F bb) rewrite.incoming := by
          rintro rewrite ⟨same, redundant⟩
          obtain ⟨sameBlock, sameInst⟩ := Prod.mk.inj same
          have edges := redundant.edges
          obtain ⟨lhs', rhs', isData', candidate, all⟩ := redundant.operation
          rw [sameBlock] at edges
          rw [edges, sameBlock, sameInst] at all
          rw [sameInst] at isData'
          cases isData.symm.trans isData'
          exact ⟨rfl, rfl, candidate, edges, all⟩
        split at ran
        · cases ran
        · next M isNone =>
            have spec := ValueNumbers.expr_spec ok isNone
            exact skipped spec.ok spec.grown
              (fun rewrite redundant => spec.none rfl (operation redundant).2.2.1) ran
        · next e M isSome =>
            have spec := ValueNumbers.expr_spec ok isSome
            have isInt : e.resultTy = .int32 := by
              obtain ⟨-, l, r, -, -, rfl⟩ := spec.some rfl
              exact ordered_resultTy
            split at ran
            · next isTy =>
                have isTy := isTy.trans isInt
                subst isTy
                split at ran
                · cases ran
                · next M' refused =>
                    obtain ⟨ok', grown', all⟩ := edgeLeaders_spec
                      (answersHere _ op lhs rhs isData) spec.ok (grown.trans spec.grown) refused
                    refine skipped ok' (spec.grown.trans grown') (fun rewrite redundant => ?_) ran
                    cases (all rewrite.incoming).mpr (operation redundant).2.2.2.2
                · next incoming M' taken =>
                    obtain ⟨ok', grown', all⟩ := edgeLeaders_spec
                      (answersHere _ op lhs rhs isData) spec.ok (grown.trans spec.grown) taken
                    have brought := (all incoming).mp rfl
                    split at ran
                    · next worth =>
                        cases ran
                        have redundant : RedundantAt arena F G T (bb, inst)
                            ⟨bb, inst, op, G.incomingEdges F bb, incoming⟩ :=
                          ⟨rfl, isBlock, joins, insideHere, rfl,
                            ⟨lhs, rhs, isData, (spec.some rfl).1, brought⟩,
                            (isRewrite_iff incoming).mp worth⟩
                        refine ⟨ok', spec.grown.trans grown', fun rewrite => ?_⟩
                        rw [List.map_cons, FirstIn, Option.some.injEq]
                        constructor
                        · rintro rfl
                          exact .inl redundant
                        · rintro (here | ⟨none, -⟩)
                          · exact redundant.unique here
                          · exact absurd redundant (none _)
                    · next notWorth =>
                        refine skipped ok' (spec.grown.trans grown')
                          (fun rewrite redundant => ?_) ran
                        refine notWorth ((isRewrite_iff incoming).mpr ?_)
                        rw [brings_rightUnique.forall₂ brought (operation redundant).2.2.2.2]
                        exact redundant.2.worth
            · next notTy =>
                refine skipped spec.ok spec.grown (fun rewrite redundant => ?_) ran
                exact notTy ((operation redundant).1.trans isInt.symm)
    · next data notBinary isData =>
        refine skipped ok (.refl _) (fun rewrite redundant => ?_) ran
        obtain ⟨same, redundant⟩ := redundant
        obtain ⟨lhs, rhs, isBinary, -⟩ := redundant.operation
        rw [(Prod.mk.inj same).2] at isBinary
        cases isData.symm.trans isBinary
        exact notBinary _ _ _ _ rfl

theorem findInBlocks_spec {found : Option Rewrite}
    (answers : ∀ bb ∈ G.blocks, isJoin arena F G T bb = true →
    AnswersAll arena F G T output N₀ bb ((F.blockInsts bb).getD []))
    (inside : blocks ⊆ G.blocks) (ok : N.Ok arena) (grown : N₀.Extends N)
    (ran : findInBlocks arena F G T fuel output blocks N = some found) :
    ∀ rewrite, found = some rewrite ↔
      FirstIn arena F G T (places arena F G T blocks) rewrite := by
  induction blocks generalizing N with
  | nil =>
    cases ran
    exact fun rewrite => iff_of_false (by simp) id
  | cons bb blocks ih =>
    obtain ⟨isBlock, insideLater⟩ := List.cons_subset.mp inside
    rw [findInBlocks] at ran
    split at ran
    · next joins =>
        have split : places arena F G T (bb :: blocks) =
            ((F.blockInsts bb).getD []).map (fun inst => (bb, inst)) ++
              places arena F G T blocks := by
          simp [places, joins]
        intro rewrite
        rw [split, firstIn_append]
        split at ran
        · cases ran
        · next first _ isHere =>
            cases ran
            obtain ⟨-, -, here⟩ := findInBlock_spec (answers bb isBlock joins) isBlock joins
              (List.Subset.refl _) ok grown isHere
            rw [here rewrite]
            refine ⟨.inl, fun first' => first'.resolve_right fun later => ?_⟩
            exact later.1 first ((here first).mp rfl)
        · next M notHere =>
            obtain ⟨ok', grown', here⟩ := findInBlock_spec (answers bb isBlock joins) isBlock
              joins (List.Subset.refl _) ok grown notHere
            rw [ih insideLater ok' (grown.trans grown') ran rewrite]
            have none : ∀ other, ¬ FirstIn arena F G T
                (((F.blockInsts bb).getD []).map fun inst => (bb, inst)) other :=
              fun other first => by cases (here other).mpr first
            exact ⟨fun later => .inr ⟨none, later⟩,
              fun first => (first.resolve_left (none rewrite)).2⟩
    · next notJoin =>
        have same : places arena F G T (bb :: blocks) = places arena F G T blocks := by
          simp [places, notJoin]
        rw [same]
        exact ih insideLater ok grown ran

/-! ## The function -/

/-- A redundancy of the function, with respect to its graph and its tree. -/
def Redundancy (arena : Arena) (F : FunctionData) (fuel : Nat) (rewrite : Rewrite) : Prop :=
  ∃ entry G T, F.entryBlock = some entry ∧ CFG.ofEntry F fuel entry = some G ∧
    DominanceTree.ofCfg G fuel = some T ∧ Redundant arena F G T rewrite

/-- The first one in the order of the blocks and their instructions. -/
def FirstRedundancy (arena : Arena) (F : FunctionData) (fuel : Nat) (rewrite : Rewrite) : Prop :=
  ∃ entry G T, F.entryBlock = some entry ∧ CFG.ofEntry F fuel entry = some G ∧
    DominanceTree.ofCfg G fuel = some T ∧
      FirstIn arena F G T (places arena F G T G.blocks) rewrite

theorem exists_firstRedundancy_iff :
    (∃ rewrite, FirstRedundancy arena F fuel rewrite) ↔
      ∃ rewrite, Redundancy arena F fuel rewrite := by
  constructor
  · rintro ⟨rewrite, entry, G, T, isEntry, isCfg, isTree, first⟩
    exact ⟨rewrite, entry, G, T, isEntry, isCfg, isTree, first.redundant⟩
  · rintro ⟨rewrite, entry, G, T, isEntry, isCfg, isTree, redundant⟩
    have member : (rewrite.bb, rewrite.recomputation) ∈ places arena F G T G.blocks :=
      mem_places.mpr ⟨redundant.isBlock, redundant.isJoin, redundant.member⟩
    obtain ⟨first, isFirst⟩ := exists_firstIn member ⟨rfl, redundant⟩
    exact ⟨first, entry, G, T, isEntry, isCfg, isTree, isFirst⟩

/-- A search that comes to an end has found the first redundancy. -/
theorem findRewrite_spec {found : Option Rewrite} (ran : findRewrite arena F fuel = some found)
    (rewrite : Rewrite) : found = some rewrite ↔ FirstRedundancy arena F fuel rewrite := by
  unfold findRewrite at ran
  split at ran
  · next noEntry =>
      cases ran
      refine iff_of_false (by simp) ?_
      rintro ⟨entry, _, _, isEntry, -⟩
      cases noEntry.symm.trans isEntry
  · next entry isEntry =>
      obtain ⟨G, isCfg, ran⟩ := Option.bind_eq_some_iff.mp ran
      obtain ⟨T, isTree, ran⟩ := Option.bind_eq_some_iff.mp ran
      obtain ⟨⟨output, N⟩, led, ran⟩ := Option.bind_eq_some_iff.mp ran
      obtain ⟨-, built⟩ := CFG.ofEntry_built isCfg
      obtain ⟨single, sameEntry⟩ := singleParents_of_ofCfg built isTree
      obtain ⟨ok, answers⟩ := requestedLeaders_spec single sameEntry led
      have all : ∀ bb ∈ G.blocks, isJoin arena F G T bb = true →
          AnswersAll arena F G T output N bb ((F.blockInsts bb).getD []) := by
        intro bb isBlock joins inst member ty op lhs rhs isData edge isEdge lhs' rhs' isLhs isRhs
        have many : 2 ≤ (G.incomingEdges F bb).length := by
          have parts := (Bool.and_eq_true _ _).mp joins
          exact of_decide_eq_true parts.1
        exact answers bb isBlock many inst member ty op lhs rhs isData edge isEdge lhs' rhs' isLhs
          isRhs
      rw [findInBlocks_spec all (List.Subset.refl _) ok (.refl _) ran rewrite]
      constructor
      · exact fun first => ⟨entry, G, T, isEntry, isCfg, isTree, first⟩
      · rintro ⟨entry', G', T', isEntry', isCfg', isTree', first⟩
        cases isEntry.symm.trans isEntry'
        cases isCfg.symm.trans isCfg'
        cases isTree.symm.trans isTree'
        exact first

end AnonCompiler.Opt.GvnPre
